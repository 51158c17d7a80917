import Mathlib.Data.List.Count
import Mathlib.Data.Set.Basic
import PlinyCompute.Handle

namespace PlinyCompute.Handles

open Transition

def membersOf : Option RefCountedObject → List Handle
  | none => []
  | some x => x.members

def pointers (fs : List Handle) (o : ℕ) : ℕ := fs.countP fun f => decide (f.target = some o)

@[simp] theorem pointers_nil (o : ℕ) : pointers [] o = 0 := rfl

@[simp] theorem pointers_cons (f : Handle) (fs : List Handle) (o : ℕ) :
    pointers (f :: fs) o = pointers fs o + if f.target = some o then 1 else 0 := by
  simp [pointers, List.countP_cons]

@[simp] theorem pointers_append (fs gs : List Handle) (o : ℕ) :
    pointers (fs ++ gs) o = pointers fs o + pointers gs o := List.countP_append

theorem pointers_perm {fs gs : List Handle} (h : fs.Perm gs) (o : ℕ) : pointers fs o = pointers gs o :=
  h.countP_eq _

theorem pointers_pos {fs : List Handle} {f : Handle} {o : ℕ} (hf : f ∈ fs) (ht : f.target = some o) :
    0 < pointers fs o := by
  apply List.countP_pos_iff.mpr
  exact ⟨f, hf, decide_eq_true ht⟩

theorem pointers_filter (fs : List Handle) (o : ℕ) : pointers (fs.filter (·.target.isSome)) o = pointers fs o := by
  unfold pointers
  rw [List.countP_filter]
  congr 1
  funext f
  cases f.target <;> simp

theorem exists_of_pointers_pos {fs : List Handle} {o : ℕ} (h : 0 < pointers fs o) :
    ∃ f ∈ fs, f.target = some o := by
  obtain ⟨f, hf, ht⟩ := List.countP_pos_iff.mp h
  exact ⟨f, hf, of_decide_eq_true ht⟩

theorem pointers_set {fs : List Handle} {k : ℕ} {old : Handle} (h : fs[k]? = some old) (f : Handle) (o : ℕ) :
    pointers (fs.set k f) o + pointers [old] o = pointers fs o + pointers [f] o := by
  induction fs generalizing k with
  | nil => simp at h
  | cons g gs ih =>
    cases k with
    | zero =>
      simp only [List.getElem?_cons_zero, Option.some.injEq] at h
      subst h
      simp only [List.set_cons_zero, pointers_cons, pointers_nil]
      omega
    | succ k =>
      have := ih (k := k) (by simpa using h)
      simp only [List.set_cons_succ, pointers_cons, pointers_nil] at this ⊢
      omega

structure Same (x y : RefCountedObject) : Prop where
  block : y.block = x.block
  type : y.type = x.type
  data : y.data = x.data
  disableDestructor : y.disableDestructor = x.disableDestructor
  members : y.members = x.members

theorem Same.refl (x : RefCountedObject) : Same x x := ⟨rfl, rfl, rfl, rfl, rfl⟩

theorem Same.trans {x y z : RefCountedObject} (h : Same x y) (h' : Same y z) : Same x z :=
  ⟨h'.block.trans h.block, h'.type.trans h.type, h'.data.trans h.data,
    h'.disableDestructor.trans h.disableDestructor, h'.members.trans h.members⟩

theorem Same.symm {x y : RefCountedObject} (h : Same x y) : Same y x :=
  ⟨h.block.symm, h.type.symm, h.data.symm, h.disableDestructor.symm, h.members.symm⟩

namespace Heap

variable {h h' : Heap} {o p : ℕ} {x : RefCountedObject} {y : Option RefCountedObject}

def handles (h : Heap) : List Handle := h.objects.flatMap membersOf

def held (h : Heap) : List Handle := h.handles ++ h.lost

def live (h : Heap) : ℕ := h.objects.countP Option.isSome

theorem lt_of_get (hx : h.get o = some x) : o < h.objects.length := by
  by_contra hlt
  have : h.objects[o]? = none := List.getElem?_eq_none (Nat.le_of_not_lt hlt)
  simp [get, this] at hx

theorem getElem_of_get (hx : h.get o = some x) : h.objects[o]? = some (some x) := by
  unfold get at hx
  cases hg : h.objects[o]? with
  | none => simp [hg] at hx
  | some z =>
    rw [hg] at hx
    exact congrArg some hx

theorem get_set_self (hx : h.get o = some x) : (h.set o y).get o = y := by
  have := lt_of_get hx
  simp [get, set, this]

theorem get_set_ne (hne : p ≠ o) : (h.set o y).get p = h.get p := by
  simp [get, set, hne.symm]

theorem mem_handles {f : Handle} : f ∈ h.handles ↔ ∃ o x, h.get o = some x ∧ f ∈ x.members := by
  unfold handles
  rw [List.mem_flatMap]
  constructor
  · rintro ⟨z, hz, hf⟩
    cases z with
    | none => simp [membersOf] at hf
    | some x =>
      obtain ⟨o, ho⟩ := List.mem_iff_getElem?.mp hz
      exact ⟨o, x, by simp [get, ho], hf⟩
  · rintro ⟨o, x, hx, hf⟩
    exact ⟨some x, List.mem_of_getElem? (getElem_of_get hx), hf⟩

theorem mem_held {f : Handle} : f ∈ h.held ↔ (∃ o x, h.get o = some x ∧ f ∈ x.members) ∨ f ∈ h.lost := by
  rw [held, List.mem_append, mem_handles]

theorem mem_held_of_get {f : Handle} (hx : h.get o = some x) (hf : f ∈ x.members) : f ∈ h.held :=
  mem_held.mpr (.inl ⟨o, x, hx, hf⟩)

theorem mem_held_set {f : Handle} (hx : h.get o = some x) (hf : f ∈ (h.set o y).held) :
    f ∈ membersOf y ∨ f ∈ h.held := by
  obtain ⟨p, z, hz, hfz⟩ | hlost := mem_held.mp hf
  · by_cases hp : p = o
    · subst hp
      rw [get_set_self hx] at hz
      rw [hz]
      exact .inl hfz
    · rw [get_set_ne hp] at hz
      exact .inr (mem_held_of_get hz hfz)
  · exact .inr (mem_held.mpr (.inr hlost))

theorem pointers_flatMap_set {l : List (Option RefCountedObject)} {z : Option RefCountedObject}
    (hz : l[o]? = some z) (y : Option RefCountedObject) (p : ℕ) :
    pointers ((l.set o y).flatMap membersOf) p + pointers (membersOf z) p =
      pointers (l.flatMap membersOf) p + pointers (membersOf y) p := by
  induction l generalizing o with
  | nil => simp at hz
  | cons a l ih =>
    cases o with
    | zero =>
      simp only [List.getElem?_cons_zero, Option.some.injEq] at hz
      subst hz
      simp only [List.set_cons_zero, List.flatMap_cons, pointers_append]
      omega
    | succ o =>
      have := ih (o := o) (by simpa using hz)
      simp only [List.set_cons_succ, List.flatMap_cons, pointers_append]
      omega

theorem pointers_held_set (hx : h.get o = some x) (y : Option RefCountedObject) (p : ℕ) :
    pointers (h.set o y).held p + pointers x.members p = pointers h.held p + pointers (membersOf y) p := by
  have hset := pointers_flatMap_set (getElem_of_get hx) y p
  have hlost : (h.set o y).lost = h.lost := rfl
  have hhandles : (h.set o y).handles = (h.objects.set o y).flatMap membersOf := rfl
  rw [held, held, pointers_append, pointers_append, hlost, hhandles, handles]
  simp only [membersOf] at hset ⊢
  omega

theorem live_set (hx : h.get o = some x) : (h.set o y).live + 1 = h.live + if y.isSome then 1 else 0 := by
  have hlt := lt_of_get hx
  have hget : h.objects[o] = some x := by
    have := getElem_of_get hx
    rwa [List.getElem?_eq_getElem hlt, Option.some.injEq] at this
  have hpos : 0 < h.objects.countP Option.isSome := by
    apply List.countP_pos_iff.mpr
    exact ⟨some x, hget ▸ List.getElem_mem hlt, rfl⟩
  unfold live set
  dsimp only
  rw [List.countP_set hlt, hget, Option.isSome_some, if_pos rfl]
  omega

theorem live_le (h : Heap) : h.live ≤ h.objects.length := List.countP_le_length

end Heap

def Aims (h : Heap) (f : Handle) : Prop :=
  ∀ o, f.target = some o → ∃ x, h.get o = some x ∧ f.typeInfo = x.type

/-- The counts are right when `hs` are the handles outside of the objects. The object `loose` is under
construction and has no handles yet. -/
structure Balanced (h : Heap) (hs : List Handle) (loose : Option ℕ) : Prop where
  counted : ∀ o x, h.get o = some x → h.isManaged x.block = true →
    x.refCount = pointers hs o + pointers h.held o
  owned : ∀ o x, h.get o = some x → h.isManaged x.block = true → some o ≠ loose → 0 < x.refCount
  idle : ∀ o x, loose = some o → h.get o = some x → h.isManaged x.block = true ∧ x.refCount = 0
  aimed : ∀ f ∈ hs, Aims h f
  aimedIn : ∀ f ∈ h.held, Aims h f
  placed : ∀ o x, h.get o = some x → x.block < h.numBlocks
  active : h.activeRAM < h.numBlocks

namespace Balanced

variable {h h' : Heap} {hs hs' : List Handle} {loose : Option ℕ} {f old : Handle} {o p : ℕ}
  {x y : RefCountedObject}

theorem perm (s : Balanced h hs loose) (hp : hs.Perm hs') : Balanced h hs' loose where
  counted o x hx hm := by rw [s.counted o x hx hm, pointers_perm hp]
  owned := s.owned
  idle := s.idle
  aimed f hf := s.aimed f (hp.mem_iff.mpr hf)
  aimedIn := s.aimedIn
  placed := s.placed
  active := s.active

theorem drop (s : Balanced h (f :: hs) loose)
    (hf : ∀ o, f.target = some o → ∃ x, h.get o = some x ∧ h.isManaged x.block = false) :
    Balanced h hs loose where
  counted o x hx hm := by
    rw [s.counted o x hx hm, pointers_cons]
    by_cases ht : f.target = some o
    · obtain ⟨z, hz, hzm⟩ := hf o ht
      rw [hx, Option.some.injEq] at hz
      subst hz
      rw [hm] at hzm
      cases hzm
    · rw [if_neg ht]
      omega
  owned := s.owned
  idle := s.idle
  aimed g hg := s.aimed g (List.mem_cons_of_mem _ hg)
  aimedIn := s.aimedIn
  placed := s.placed
  active := s.active

theorem drop_null (s : Balanced h (f :: hs) loose) (hf : f.target = none) : Balanced h hs loose :=
  s.drop fun o ht => by simp [hf] at ht

theorem add_null (s : Balanced h hs loose) (hf : f.target = none) : Balanced h (f :: hs) loose where
  counted o x hx hm := by
    rw [s.counted o x hx hm, pointers_cons, if_neg (by simp [hf])]
    omega
  owned := s.owned
  idle := s.idle
  aimed g hg := by
    obtain rfl | hg := List.mem_cons.mp hg
    · intro o ho
      simp [hf] at ho
    · exact s.aimed g hg
  aimedIn := s.aimedIn
  placed := s.placed
  active := s.active

end Balanced

section SetCount

variable {h : Heap} {hs hs' : List Handle} {loose loose' : Option ℕ} {f : Handle} {o p n : ℕ}
  {x y : RefCountedObject}

namespace Heap

def setCount (h : Heap) (o n : ℕ) (x : RefCountedObject) : Heap := h.set o (some { x with refCount := n })

theorem get_setCount (hx : h.get o = some x) (hy : (h.setCount o n x).get p = some y) :
    ∃ z, h.get p = some z ∧ Same z y ∧ (p = o → y.refCount = n) ∧ (p ≠ o → y = z) := by
  by_cases hp : p = o
  · subst hp
    rw [setCount, get_set_self hx, Option.some.injEq] at hy
    subst hy
    exact ⟨x, hx, ⟨rfl, rfl, rfl, rfl, rfl⟩, fun _ => rfl, fun hne => absurd rfl hne⟩
  · rw [setCount, get_set_ne hp] at hy
    exact ⟨y, hy, .refl y, fun he => absurd he hp, fun _ => rfl⟩

theorem setCount_get (hx : h.get o = some x) (hy : h.get p = some y) :
    ∃ z, (h.setCount o n x).get p = some z ∧ Same y z := by
  by_cases hp : p = o
  · subst hp
    rw [hx, Option.some.injEq] at hy
    subst hy
    exact ⟨_, get_set_self hx, ⟨rfl, rfl, rfl, rfl, rfl⟩⟩
  · exact ⟨y, by rw [setCount, get_set_ne hp, hy], .refl y⟩

theorem pointers_held_setCount (hx : h.get o = some x) (p : ℕ) :
    pointers (h.setCount o n x).held p = pointers h.held p := by
  have := pointers_held_set hx (some { x with refCount := n }) p
  simp only [membersOf] at this
  unfold setCount
  omega

theorem mem_held_setCount (hx : h.get o = some x) (hf : f ∈ (h.setCount o n x).held) : f ∈ h.held := by
  obtain hf | hf := mem_held_set hx hf
  · exact mem_held_of_get hx hf
  · exact hf

@[simp] theorem isManaged_setCount (b : ℕ) : (h.setCount o n x).isManaged b = h.isManaged b := rfl

end Heap

theorem Aims.setCount (hx : h.get o = some x) (hf : Aims h f) : Aims (h.setCount o n x) f := by
  intro p hp
  obtain ⟨y, hy, ht⟩ := hf p hp
  obtain ⟨z, hz, hsame⟩ := Heap.setCount_get (n := n) hx hy
  exact ⟨z, hz, ht.trans hsame.type.symm⟩

theorem Balanced.setCount (s : Balanced h hs loose) (hx : h.get o = some x)
    (hn : n = pointers hs' o + pointers h.held o) (hpos : 0 < n)
    (hother : ∀ p ≠ o, pointers hs' p = pointers hs p)
    (hloose : ∀ p ≠ o, some p ≠ loose' → some p ≠ loose) (hidle : ∀ p, loose' = some p → p ≠ o ∧ loose = some p)
    (haimed : ∀ f ∈ hs', Aims h f) : Balanced (h.setCount o n x) hs' loose' where
  counted p y hy hm := by
    obtain ⟨z, hz, hsame, ho, hne⟩ := Heap.get_setCount hx hy
    rw [Heap.pointers_held_setCount hx]
    by_cases hp : p = o
    · subst hp
      rw [ho rfl, hn]
    · rw [hother p hp]
      rw [hne hp] at hm ⊢
      exact s.counted p z hz hm
  owned p y hy hm hl := by
    obtain ⟨z, hz, hsame, ho, hne⟩ := Heap.get_setCount hx hy
    by_cases hp : p = o
    · rw [ho hp]
      exact hpos
    · rw [hne hp] at hm ⊢
      exact s.owned p z hz hm (hloose p hp hl)
  idle p y hl hy := by
    obtain ⟨z, hz, hsame, ho, hne⟩ := Heap.get_setCount hx hy
    obtain ⟨hp, hl⟩ := hidle p hl
    rw [hne hp]
    exact s.idle p z hl hz
  aimed f hf := (haimed f hf).setCount hx
  aimedIn f hf := (s.aimedIn f (Heap.mem_held_setCount hx hf)).setCount hx
  placed p y hy := by
    obtain ⟨z, hz, hsame, -⟩ := Heap.get_setCount hx hy
    rw [hsame.block]
    exact s.placed p z hz
  active := s.active

theorem Balanced.incRefCount {h' : Heap} (s : Balanced h hs loose) (hx : h.get o = some x)
    (hl : loose' = loose ∧ some o ≠ loose ∨ loose' = none ∧ loose = some o) (he : h.incRefCount o = .ok h') :
    Balanced h' (⟨some o, x.type⟩ :: hs) loose' := by
  have haim : ∀ f ∈ ⟨some o, x.type⟩ :: hs, Aims h f := by
    intro f hf
    obtain rfl | hf := List.mem_cons.mp hf
    · intro p hp
      cases hp
      exact ⟨x, hx, rfl⟩
    · exact s.aimed f hf
  simp only [Heap.incRefCount, hx] at he
  split at he
  next hm =>
    split at he
    · cases he
    · cases he
      have hc := s.counted o x hx hm
      apply s.setCount hx
      · rw [pointers_cons, if_pos rfl]
        omega
      · omega
      · intro p hp
        rw [pointers_cons, if_neg (fun he => hp (Option.some.inj he).symm)]
        rfl
      · intro p hp hne
        obtain ⟨rfl, -⟩ | ⟨-, rfl⟩ := hl
        · exact hne
        · exact fun he => hp (Option.some.inj he)
      · rintro p rfl
        obtain ⟨rfl, hne⟩ | ⟨hnone, -⟩ := hl
        · exact ⟨fun he => hne (he ▸ rfl), rfl⟩
        · cases hnone
      · exact haim
  next hm =>
    cases he
    have hnot : h.isManaged x.block = false := by simpa using hm
    have hne : some o ≠ loose := by
      rintro rfl
      rw [(s.idle o x rfl hx).1] at hnot
      cases hnot
    obtain ⟨rfl, -⟩ | ⟨-, rfl⟩ := hl
    · refine ⟨?_, s.owned, s.idle, haim, s.aimedIn, s.placed, s.active⟩
      intro p y hy hmy
      have hpo : some o ≠ some p := by
        intro he
        cases he
        rw [hx, Option.some.injEq] at hy
        subst hy
        rw [hmy] at hnot
        cases hnot
      rw [pointers_cons, if_neg hpo]
      exact s.counted p y hy hmy
    · exact absurd rfl hne

end SetCount

structure SameBlocks (h h' : Heap) : Prop where
  activeRAM : h'.activeRAM = h.activeRAM
  throwException : h'.throwException = h.throwException
  curBlockUserSupplied : h'.curBlockUserSupplied = h.curBlockUserSupplied
  allInactives : h'.allInactives = h.allInactives
  numBlocks : h'.numBlocks = h.numBlocks
  lost : h.lost ⊆ h'.lost

theorem SameBlocks.refl (h : Heap) : SameBlocks h h := ⟨rfl, rfl, rfl, rfl, rfl, fun _ => id⟩

theorem SameBlocks.trans {h h' h'' : Heap} (a : SameBlocks h h') (b : SameBlocks h' h'') : SameBlocks h h'' :=
  ⟨b.1.trans a.1, b.2.trans a.2, b.3.trans a.3, b.4.trans a.4, b.5.trans a.5, fun _ hf => b.6 (a.6 hf)⟩

theorem SameBlocks.isManaged {h h' : Heap} (a : SameBlocks h h') (b : ℕ) : h'.isManaged b = h.isManaged b := by
  simp only [Heap.isManaged, Heap.contains, a.activeRAM, a.allInactives]

def Keeps (S : Set ℕ) (h h' : Heap) : Prop :=
  ∀ o ∈ S, ∀ x, h.get o = some x → ∃ y, h'.get o = some y ∧ Same x y

theorem Keeps.refl (S : Set ℕ) (h : Heap) : Keeps S h h := fun _ _ x hx => ⟨x, hx, .refl x⟩

theorem Keeps.trans {S : Set ℕ} {h h' h'' : Heap} (a : Keeps S h h') (b : Keeps S h' h'') : Keeps S h h'' := by
  intro o ho x hx
  obtain ⟨y, hy, hxy⟩ := a o ho x hx
  obtain ⟨z, hz, hyz⟩ := b o ho y hy
  exact ⟨z, hz, hxy.trans hyz⟩

structure Shrinks (h h' : Heap) : Prop extends SameBlocks h h' where
  space : h'.space = h.space
  length : h'.objects.length = h.objects.length
  live : h'.live ≤ h.live
  left : ∀ o y, h'.get o = some y → ∃ x, h.get o = some x ∧ Same x y
  disabled : ∀ f ∈ h'.lost, f ∈ h.lost ∨
    ∃ o x, h.get o = some x ∧ x.disableDestructor = true ∧ f ∈ x.members ∧ f.target.isSome = true

theorem Shrinks.refl (h : Heap) : Shrinks h h :=
  ⟨.refl h, rfl, rfl, le_refl _, fun _ y hy => ⟨y, hy, .refl y⟩, fun _ hf => .inl hf⟩

theorem Shrinks.trans {h h' h'' : Heap} (a : Shrinks h h') (b : Shrinks h' h'') : Shrinks h h'' where
  toSameBlocks := a.toSameBlocks.trans b.toSameBlocks
  space := b.space.trans a.space
  length := b.length.trans a.length
  live := b.live.trans a.live
  left o z hz := by
    obtain ⟨y, hy, hyz⟩ := b.left o z hz
    obtain ⟨x, hx, hxy⟩ := a.left o y hy
    exact ⟨x, hx, hxy.trans hyz⟩
  disabled f hf := by
    obtain hf | ⟨o, y, hy, hd, hm, ht⟩ := b.disabled f hf
    · exact a.disabled f hf
    · obtain ⟨x, hx, hxy⟩ := a.left o y hy
      exact .inr ⟨o, x, hx, hxy.disableDestructor ▸ hd, hxy.members ▸ hm, ht⟩

def Supported (h : Heap) (hs : List Handle) (loose : Option ℕ) (S : Set ℕ) : Prop :=
  ∀ o ∈ S, ∀ x, h.get o = some x → h.isManaged x.block = true → some o ≠ loose →
    (∃ f, (f ∈ hs ∨ f ∈ h.lost) ∧ f.target = some o) ∨
      ∃ p ∈ S, ∃ y, h.get p = some y ∧ ∃ f ∈ y.members, f.target = some o

namespace Supported

variable {h h' : Heap} {hs : List Handle} {loose : Option ℕ} {S : Set ℕ}

theorem mono {hs' : List Handle} (s : Supported h hs loose S) (hsub : ∀ f ∈ hs, f ∈ hs') :
    Supported h hs' loose S := by
  intro o ho x hx hm hl
  obtain ⟨f, hf, ht⟩ | hin := s o ho x hx hm hl
  · exact Or.inl ⟨f, hf.imp_left (hsub f), ht⟩
  · exact Or.inr hin

theorem shrinks (s : Supported h hs loose S) (hk : Keeps S h h') (hsh : Shrinks h h') :
    Supported h' hs loose S := by
  intro o ho y hy hm hl
  obtain ⟨x, hx, hxy⟩ := hsh.left o y hy
  rw [hsh.isManaged, hxy.block] at hm
  obtain ⟨f, hf, ht⟩ | ⟨p, hp, z, hz, f, hf, ht⟩ := s o ho x hx hm hl
  · exact Or.inl ⟨f, hf.imp_right fun hf => hsh.toSameBlocks.lost hf, ht⟩
  · obtain ⟨z', hz', hzz⟩ := hk p hp z hz
    exact Or.inr ⟨p, hp, z', hz', f, by rwa [hzz.members], ht⟩

theorem one_lt {f : Handle} {o : ℕ} {x : RefCountedObject} (s : Supported h hs loose S)
    (hbal : Balanced h (f :: hs) loose) (ho : o ∈ S) (hx : h.get o = some x) (hm : h.isManaged x.block = true)
    (ht : f.target = some o) : 1 < x.refCount := by
  have hc := hbal.counted o x hx hm
  rw [pointers_cons, if_pos ht] at hc
  have hl : some o ≠ loose := by
    rintro rfl
    have := (hbal.idle o x rfl hx).2
    omega
  obtain ⟨g, hg | hg, hgt⟩ | ⟨p, -, y, hy, g, hg, hgt⟩ := s o ho x hx hm hl
  · have := pointers_pos hg hgt
    omega
  · have := pointers_pos (Heap.mem_held.mpr (.inr hg)) hgt
    omega
  · have := pointers_pos (Heap.mem_held_of_get hy hg) hgt
    omega

end Supported

section Destroy

variable {h : Heap} {hs : List Handle} {loose : Option ℕ} {f : Handle} {o t : ℕ}
  {x : RefCountedObject}

theorem Balanced.erase {hs₀ : List Handle} {loose' : Option ℕ} (s : Balanced h hs₀ loose) (hx : h.get o = some x)
    (hzero : pointers hs o = 0) (hzero' : pointers h.held o = 0)
    (hother : ∀ p ≠ o, pointers hs p = pointers hs₀ p) (hsub : ∀ f ∈ hs, f ∈ hs₀)
    (hloose : ∀ p ≠ o, some p ≠ loose' → some p ≠ loose) (hidle : ∀ p, loose' = some p → loose = some p) :
    Balanced (h.set o none) (x.members ++ hs) loose' := by
  have hget : ∀ p y, (h.set o none).get p = some y → p ≠ o ∧ h.get p = some y := by
    intro p y hy
    by_cases hp : p = o
    · subst hp
      rw [Heap.get_set_self hx] at hy
      cases hy
    · rw [Heap.get_set_ne hp] at hy
      exact ⟨hp, hy⟩
  have haim : ∀ g, Aims h g → g.target ≠ some o → Aims (h.set o none) g := by
    intro g hg hne p hp
    obtain ⟨y, hy, hty⟩ := hg p hp
    have hpo : p ≠ o := by
      rintro rfl
      exact hne hp
    exact ⟨y, by rw [Heap.get_set_ne hpo, hy], hty⟩
  have hnot : ∀ gs, pointers gs o = 0 → ∀ g ∈ gs, g.target ≠ some o := by
    intro gs hgs g hg he
    have := pointers_pos hg he
    omega
  constructor
  · intro p y hy hmy
    obtain ⟨hp, hy⟩ := hget p y hy
    have hset := Heap.pointers_held_set hx none p
    have hcp := s.counted p y hy hmy
    simp only [membersOf, pointers_nil] at hset
    rw [pointers_append, hother p hp]
    omega
  · intro p y hy hm hl
    obtain ⟨hp, hy⟩ := hget p y hy
    exact s.owned p y hy hm (hloose p hp hl)
  · intro p y hl hy
    exact s.idle p y (hidle p hl) (hget p y hy).2
  · intro g hg
    obtain hg | hg := List.mem_append.mp hg
    · have hgh : g ∈ h.held := Heap.mem_held_of_get hx hg
      exact haim g (s.aimedIn g hgh) (hnot _ hzero' g hgh)
    · exact haim g (s.aimed g (hsub g hg)) (hnot _ hzero g hg)
  · intro g hg
    have hgh : g ∈ h.held := (Heap.mem_held_set hx hg).resolve_left (List.not_mem_nil)
    exact haim g (s.aimedIn g hgh) (hnot _ hzero' g hgh)
  · intro p y hy
    exact s.placed p y (hget p y hy).2
  · exact s.active

theorem Balanced.remove (s : Balanced h (f :: hs) loose) (ht : f.target = some o) (hx : h.get o = some x)
    (hm : h.isManaged x.block = true) (hone : x.refCount = 1) :
    Balanced (h.set o none) (x.members ++ hs) loose := by
  have hc := s.counted o x hx hm
  rw [pointers_cons, if_pos ht, hone] at hc
  apply s.erase hx (by omega) (by omega)
  · intro p hp
    have hft : f.target ≠ some p := by
      rw [ht]
      exact fun he => hp (Option.some.inj he).symm
    rw [pointers_cons, if_neg hft]
    rfl
  · exact fun g hg => List.mem_cons_of_mem _ hg
  · exact fun p _ hl => hl
  · exact fun p hl => hl

theorem Balanced.lose {fs : List Handle} (s : Balanced h (fs ++ hs) loose) : Balanced (h.lose fs) hs loose where
  counted p y hy hm := by
    have hc := s.counted p y hy hm
    have hheld : (h.lose fs).held = h.handles ++ (fs.filter (·.target.isSome) ++ h.lost) := rfl
    rw [pointers_append, Heap.held, pointers_append] at hc
    rw [hheld, pointers_append, pointers_append, pointers_filter]
    omega
  owned := s.owned
  idle := s.idle
  aimed g hg := s.aimed g (List.mem_append_right fs hg)
  aimedIn g hg := by
    obtain hg | hg := List.mem_append.mp hg
    · exact s.aimedIn g (List.mem_append_left _ hg)
    · obtain hg | hg := List.mem_append.mp hg
      · exact s.aimed g (List.mem_append_left hs (List.mem_filter.mp hg).1)
      · exact s.aimedIn g (List.mem_append_right _ hg)
  placed := s.placed
  active := s.active

structure Released (h h' : Heap) (hs : List Handle) (loose : Option ℕ) : Prop where
  balanced : Balanced h' hs loose
  shrinks : Shrinks h h'
  keeps : ∀ S, Supported h hs loose S → Keeps S h h'

theorem Shrinks.setCount (hx : h.get o = some x) (n : ℕ) : Shrinks h (h.setCount o n x) where
  toSameBlocks := ⟨rfl, rfl, rfl, rfl, rfl, fun _ => id⟩
  space := rfl
  length := List.length_set
  live := by
    have := Heap.live_set (y := some { x with refCount := n }) hx
    simp only [Option.isSome_some, if_true] at this
    unfold Heap.setCount
    omega
  left p y hy := by
    obtain ⟨z, hz, hsame, -⟩ := Heap.get_setCount hx hy
    exact ⟨z, hz, hsame⟩
  disabled f hf := .inl hf

theorem Shrinks.incRefCount {h' : Heap} (hx : h.get o = some x) (he : h.incRefCount o = .ok h') : Shrinks h h' := by
  simp only [Heap.incRefCount, hx] at he
  split_ifs at he
  · cases he
    exact .setCount hx _
  · cases he
    exact .refl h

theorem Shrinks.remove (hx : h.get o = some x) : Shrinks h (h.set o none) where
  toSameBlocks := ⟨rfl, rfl, rfl, rfl, rfl, fun _ => id⟩
  space := rfl
  length := List.length_set
  live := by
    have := Heap.live_set (y := none) hx
    simp only [Option.isSome_none, Bool.false_eq_true, if_false] at this
    omega
  left p y hy := by
    by_cases hp : p = o
    · subst hp
      rw [Heap.get_set_self hx] at hy
      cases hy
    · rw [Heap.get_set_ne hp] at hy
      exact ⟨y, hy, .refl y⟩
  disabled f hf := .inl hf

theorem Shrinks.lose (hx : h.get o = some x) (hd : x.disableDestructor = true) :
    Shrinks h ((h.set o none).lose x.members) where
  toSameBlocks := ⟨rfl, rfl, rfl, rfl, rfl, fun _ => List.mem_append_right _⟩
  space := rfl
  length := (Shrinks.remove hx).length
  live := (Shrinks.remove hx).live
  left := (Shrinks.remove hx).left
  disabled f hf := by
    obtain hf | hf := List.mem_append.mp hf
    · obtain ⟨hm, ht⟩ := List.mem_filter.mp hf
      exact .inr ⟨o, x, hx, hd, hm, ht⟩
    · exact .inl hf

theorem destroyAll_balanced {n : ℕ} {dec : ℕ → ℕ → Heap → Except Stop Heap}
    (hdec : ∀ h hs t o, Balanced h (⟨some o, t⟩ :: hs) loose → h.live ≤ n →
      ∃ h', dec t o h = .ok h' ∧ Released h h' hs loose)
    (fs : List Handle) (s : Balanced h (fs ++ hs) loose) (hn : h.live ≤ n) :
    ∃ h', Heap.destroyAll dec fs h = .ok h' ∧ Released h h' hs loose := by
  induction fs generalizing hs with
  | nil => exact ⟨h, rfl, s, .refl h, fun S _ => .refl S h⟩
  | cons f fs ih =>
    -- the last members go first, `f` is one of the other handles then
    have hperm : (f :: fs ++ hs).Perm (fs ++ f :: hs) := List.perm_middle.symm
    obtain ⟨h₁, he, d₁⟩ := ih (s.perm hperm)
    rw [Heap.destroyAll, he, ok_bind]
    cases ht : f.target with
    | none =>
      refine ⟨h₁, rfl, d₁.balanced.drop_null ht, d₁.shrinks, ?_⟩
      intro S hS
      exact d₁.keeps S (hS.mono fun g hg => List.mem_cons_of_mem _ hg)
    | some o =>
      have hf : f = ⟨some o, f.typeInfo⟩ := by rw [← ht]
      have s₁ := d₁.balanced
      rw [hf] at s₁
      obtain ⟨h₂, he₂, d₂⟩ := hdec h₁ hs f.typeInfo o s₁ (d₁.shrinks.live.trans hn)
      refine ⟨h₂, he₂, d₂.balanced, d₁.shrinks.trans d₂.shrinks, ?_⟩
      intro S hS
      have hk := d₁.keeps S (hS.mono fun g hg => List.mem_cons_of_mem _ hg)
      exact hk.trans (d₂.keeps S (hS.shrinks hk d₁.shrinks))

theorem decRefCount_balanced (fuel : ℕ) (s : Balanced h (⟨some o, t⟩ :: hs) loose) (hn : h.live ≤ fuel) :
    ∃ h', h.decRefCount fuel t o = .ok h' ∧ Released h h' hs loose := by
  induction fuel generalizing h hs t o with
  | zero =>
    obtain ⟨x, hx, -⟩ := s.aimed _ List.mem_cons_self o rfl
    have := Heap.live_set (y := none) hx
    simp only [Option.isSome_none, Bool.false_eq_true, if_false] at this
    omega
  | succ fuel ih =>
    obtain ⟨x, hx, hty⟩ := s.aimed _ List.mem_cons_self o rfl
    simp only [Heap.decRefCount, hx]
    by_cases hm : h.isManaged x.block = true
    · have hc := s.counted o x hx hm
      rw [pointers_cons, if_pos rfl] at hc
      rw [if_neg (by simp [hm]), if_neg (by omega)]
      by_cases hone : x.refCount = 1
      · rw [if_neg (fun hne => hne hone), if_neg (fun hne => hne hty)]
        have hrem := s.remove rfl hx hm hone
        have hlive := Heap.live_set (y := none) hx
        simp only [Option.isSome_none, Bool.false_eq_true, if_false] at hlive
        have hkeeps : ∀ S, Supported h hs loose S → Keeps S h (h.set o none) := by
          intro S hS p hp y hy
          have hpo : p ≠ o := by
            rintro rfl
            have := hS.one_lt s hp hx hm rfl
            omega
          exact ⟨y, by rw [Heap.get_set_ne hpo, hy], .refl y⟩
        by_cases hd : x.disableDestructor = true
        · rw [if_pos hd]
          exact ⟨_, rfl, hrem.lose, .lose hx hd, hkeeps⟩
        · rw [if_neg hd]
          obtain ⟨h', he, d⟩ := destroyAll_balanced (fun h hs t o => ih) x.members hrem (by omega)
          refine ⟨h', he, d.balanced, (Shrinks.remove hx).trans d.shrinks, ?_⟩
          intro S hS
          exact (hkeeps S hS).trans (d.keeps S (hS.shrinks (hkeeps S hS) (.remove hx)))
      · rw [if_pos hone]
        refine ⟨_, rfl, ?_, .setCount hx _, ?_⟩
        · apply s.setCount hx
          · omega
          · omega
          · intro p hp
            rw [pointers_cons, if_neg (fun he => hp (Option.some.inj he).symm)]
            rfl
          · exact fun p hp hne => hne
          · rintro p rfl
            refine ⟨?_, rfl⟩
            rintro rfl
            have := (s.idle p x rfl hx).2
            omega
          · exact fun f hf => s.aimed f (List.mem_cons_of_mem _ hf)
        · intro S hS p hp y hy
          exact Heap.setCount_get hx hy
    · have hnot : h.isManaged x.block = false := by simpa using hm
      rw [if_pos (by simp [hnot])]
      refine ⟨h, rfl, s.drop ?_, .refl h, fun S _ => .refl S h⟩
      rintro p hp
      cases hp
      exact ⟨x, hx, hnot⟩

theorem destroy_balanced (s : Balanced h (f :: hs) loose) :
    ∃ h', h.destroy f = .ok h' ∧ Released h h' hs loose := by
  unfold Heap.destroy
  cases ht : f.target with
  | none => exact ⟨h, rfl, s.drop_null ht, .refl h, fun S _ => .refl S h⟩
  | some o =>
    have hf : f = ⟨some o, f.typeInfo⟩ := by rw [← ht]
    rw [hf] at s
    exact decRefCount_balanced _ s h.live_le

theorem destroyMembers_balanced {n : ℕ} (fs : List Handle) (s : Balanced h (fs ++ hs) loose) (hn : h.live ≤ n) :
    ∃ h', Heap.destroyAll (Heap.decRefCount n) fs h = .ok h' ∧ Released h h' hs loose :=
  destroyAll_balanced (fun _ _ _ _ s hn => decRefCount_balanced _ s hn) fs s hn

end Destroy

structure Sound (K : Classes) (h : Heap) (hs : List Handle) (loose : Option ℕ) : Prop where
  counted : ∀ o x, h.get o = some x → h.isManaged x.block = true →
    x.refCount = pointers hs o + pointers h.held o
  owned : ∀ o x, h.get o = some x → h.isManaged x.block = true → some o ≠ loose → 0 < x.refCount
  idle : ∀ o x, loose = some o → h.get o = some x → h.isManaged x.block = true ∧ x.refCount = 0
  aimed : ∀ f ∈ hs, Aims h f
  aimedIn : ∀ f ∈ h.held, Aims h f
  shaped : ∀ o x, h.get o = some x → x.members.length = K.numMembers x.type
  placed : ∀ o x, h.get o = some x → x.block < h.numBlocks
  active : h.activeRAM < h.numBlocks

section Sound

variable {K : Classes} {h h' : Heap} {hs hs' : List Handle} {loose loose' : Option ℕ} {f : Handle} {o : ℕ}
  {x : RefCountedObject}

theorem Sound.balanced (s : Sound K h hs loose) : Balanced h hs loose :=
  ⟨s.counted, s.owned, s.idle, s.aimed, s.aimedIn, s.placed, s.active⟩

theorem Balanced.sound (b : Balanced h hs loose)
    (hshaped : ∀ o x, h.get o = some x → x.members.length = K.numMembers x.type) : Sound K h hs loose :=
  ⟨b.counted, b.owned, b.idle, b.aimed, b.aimedIn, hshaped, b.placed, b.active⟩

theorem Sound.perm (s : Sound K h hs loose) (hp : hs.Perm hs') : Sound K h hs' loose :=
  (s.balanced.perm hp).sound s.shaped

theorem Sound.drop_null (s : Sound K h (f :: hs) loose) (hf : f.target = none) : Sound K h hs loose :=
  (s.balanced.drop_null hf).sound s.shaped

theorem Sound.add_null (s : Sound K h hs loose) (hf : f.target = none) : Sound K h (f :: hs) loose :=
  (s.balanced.add_null hf).sound s.shaped

theorem Sound.shrinks (s : Sound K h hs loose) (b : Balanced h' hs' loose') (hsh : Shrinks h h') :
    Sound K h' hs' loose' := by
  apply b.sound
  intro o y hy
  obtain ⟨x, hx, hsame⟩ := hsh.left o y hy
  rw [hsame.members, hsame.type]
  exact s.shaped o x hx

theorem Sound.incRefCount (s : Sound K h hs loose) (hx : h.get o = some x)
    (hl : loose' = loose ∧ some o ≠ loose ∨ loose' = none ∧ loose = some o) (he : h.incRefCount o = .ok h') :
    Sound K h' (⟨some o, x.type⟩ :: hs) loose' :=
  s.shrinks (s.balanced.incRefCount hx hl he) (.incRefCount hx he)

theorem Sound.erase {hs₀ : List Handle} (s : Sound K h hs₀ loose) (hx : h.get o = some x)
    (hzero : pointers hs o = 0) (hzero' : pointers h.held o = 0)
    (hother : ∀ p ≠ o, pointers hs p = pointers hs₀ p) (hsub : ∀ f ∈ hs, f ∈ hs₀)
    (hloose : ∀ p ≠ o, some p ≠ loose' → some p ≠ loose) (hidle : ∀ p, loose' = some p → loose = some p) :
    Sound K (h.set o none) (x.members ++ hs) loose' :=
  s.shrinks (s.balanced.erase hx hzero hzero' hother hsub hloose hidle) (.remove hx)

structure Destroyed (K : Classes) (h h' : Heap) (hs : List Handle) (loose : Option ℕ) : Prop where
  sound : Sound K h' hs loose
  shrinks : Shrinks h h'
  keeps : ∀ S, Supported h hs loose S → Keeps S h h'

theorem Sound.destroyed (s : Sound K h hs' loose') (r : Released h h' hs loose) : Destroyed K h h' hs loose :=
  ⟨s.shrinks r.balanced r.shrinks, r.shrinks, r.keeps⟩

theorem Destroyed.released (d : Destroyed K h h' hs loose) : Released h h' hs loose :=
  ⟨d.sound.balanced, d.shrinks, d.keeps⟩

end Sound

end PlinyCompute.Handles
