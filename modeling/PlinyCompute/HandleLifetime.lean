import PlinyCompute.HandleRuns

namespace PlinyCompute.Handles

open Transition

variable {K : Classes} {w w' : World} {c : Call}

structure World.Counted (w : World) : Prop where
  counted : ∀ o x, w.heap.get o = some x → w.heap.isManaged x.block = true →
    x.refCount = pointers (w.stackHandles ++ w.heap.handles) o
  kept : ∀ o x, w.heap.get o = some x → w.heap.isManaged x.block = true →
    0 < pointers (w.stackHandles ++ w.heap.handles) o
  aimed : ∀ f ∈ w.stackHandles ++ w.heap.handles, ∀ o, f.target = some o → ∃ x, w.heap.get o = some x

structure World.Inv (K : Classes) (w : World) : Prop where
  sound : Sound K w.heap w.stackHandles none
  saved : ∀ u ∈ w.saved, u.1 ∈ w.heap.allInactives ∧ u.1 < w.heap.numBlocks
  nodup : (w.heap.activeRAM :: w.saved.map Prod.fst).Nodup

theorem World.Inv.good (i : w.Inv K) (g : Good K w w') : w'.Inv K where
  sound := g.sound
  saved u hu := by
    rw [g.blocks.allInactives, g.blocks.numBlocks]
    exact i.saved u (g.saved ▸ hu)
  nodup := by
    rw [g.blocks.activeRAM, g.saved]
    exact i.nodup

theorem World.Inv.withSpace (i : w.Inv K) (space : ℕ) : (w.withSpace space).Inv K :=
  ⟨⟨i.sound.counted, i.sound.owned, i.sound.idle, i.sound.aimed, i.sound.aimedIn, i.sound.shaped, i.sound.placed,
    i.sound.active⟩, i.saved, i.nodup⟩

theorem Good.of_extends {h₁ : Heap} (hb : SameBlocks w.heap h₁) (g : Good K { w with heap := h₁ } w') :
    Good K w w' := ⟨g.sound, hb.trans g.blocks, g.saved⟩

theorem Sound.blocks {h h' : Heap} {hs : List Handle} (s : Sound K h hs none) (ho : h'.objects = h.objects)
    (hlost : h'.lost = h.lost) (hm : ∀ b < h.numBlocks, h'.isManaged b = true → h.isManaged b = true) (hn : h.numBlocks ≤ h'.numBlocks)
    (ha : h'.activeRAM < h'.numBlocks) : Sound K h' hs none := by
  have hget : ∀ o, h'.get o = h.get o := fun o => by simp only [Heap.get, ho]
  have hheld : h'.held = h.held := by simp only [Heap.held, Heap.handles, ho, hlost]
  have haim : ∀ f, Aims h f → Aims h' f := by
    intro f hf o hfo
    rw [hget]
    exact hf o hfo
  constructor
  · intro o x hx hmx
    rw [hget] at hx
    rw [hheld]
    exact s.counted o x hx (hm _ (s.placed o x hx) hmx)
  · intro o x hx hmx hl
    rw [hget] at hx
    exact s.owned o x hx (hm _ (s.placed o x hx) hmx) hl
  · exact fun o x hl => by cases hl
  · exact fun f hf => haim f (s.aimed f hf)
  · rw [hheld]
    exact fun f hf => haim f (s.aimedIn f hf)
  · intro o x hx
    rw [hget] at hx
    exact s.shaped o x hx
  · intro o x hx
    rw [hget] at hx
    exact Nat.lt_of_lt_of_le (s.placed o x hx) hn
  · exact ha

/-- The step frees an object whose destructor returns at once, and with it a handle to an object. -/
def Loses (K : Classes) (i : Call × ℕ) (w : World) : Prop :=
  ∃ r, perform K i.1 (w.withSpace i.2) = .ok r ∧ r.1.heap.lost ≠ w.heap.lost

def Allowed (K : Classes) (i : Call × ℕ) (w : World) : Prop :=
  Legal i.1 (w.withSpace i.2) ∧ Proper i.1 (w.withSpace i.2) ∧ ¬ Loses K i w

section Runs

def classes : Classes where
  data _ := 0
  numMembers t := if t = 1 ∨ t = 3 then 1 else 0
  isPairArray t := t = 3
  disables t _ := t = 3
  isPairArray_of_disables _ _ := id

def start : World := ⟨⟨[], [], 0, true, false, [], 1, 0⟩, [], []⟩

def seen (w : World) (l : Location) : Bool :=
  (w.read l).isSome &&
  match l with
  | .stack _ => true
  | .member o _ => w.stackHandles.any fun f => f.target = some o

theorem reached_of_seen {l : Location} (h : seen w l = true) : w.Reached l := by
  obtain ⟨hr, hl⟩ := Bool.and_eq_true_iff.mp h
  refine ⟨Option.isSome_iff_exists.mp hr, ?_⟩
  cases l with
  | stack i => trivial
  | member o k =>
    obtain ⟨f, hf, ht⟩ := List.any_eq_true.mp hl
    exact .stack hf (of_decide_eq_true ht)

def legal (i : Call × ℕ) (w : World) : Bool :=
  match i.1 with
  | .makeObject none _ _ [] => true
  | .assignHandle dest source => seen (w.withSpace i.2) dest && seen (w.withSpace i.2) source
  | .temporarilyUse _ => true
  | .restore => !w.saved.isEmpty
  | .destroy j => seen (w.withSpace i.2) (.stack j)
  | _ => false

theorem of_legal (i : Call × ℕ) (w : World) (h : legal i w = true) : Legal i.1 (w.withSpace i.2) := by
  obtain ⟨c, n⟩ := i
  unfold legal at h
  split at h
  · rename_i heq
    dsimp only at heq ⊢
    rw [heq]
    constructor
    · intro d hd
      cases hd
    · intro l hl
      cases hl
  · rename_i heq
    dsimp only at heq ⊢
    rw [heq]
    obtain ⟨h₁, h₂⟩ := Bool.and_eq_true_iff.mp h
    exact ⟨reached_of_seen h₁, reached_of_seen h₂⟩
  · rename_i heq
    dsimp only at heq ⊢
    rw [heq]
    trivial
  · rename_i heq
    dsimp only at heq ⊢
    rw [heq]
    intro hs
    have : w.saved = [] := hs
    simp [this] at h
  · rename_i heq
    dsimp only at heq ⊢
    rw [heq]
    exact reached_of_seen h
  · cases h

def allowed (i : Call × ℕ) (w : World) : Bool :=
  (legal i w &&
  match i.1 with
  | .assignHandle dest source => decide (dest ≠ source) && decide (i.2 ≠ 0)
  | _ => true) &&
  (perform classes i.1 (w.withSpace i.2)).toOption.all fun r => r.1.heap.lost = w.heap.lost

theorem of_allowed (i : Call × ℕ) (w : World) (h : allowed i w = true) : Allowed classes i w := by
  obtain ⟨h, hkeeps⟩ := Bool.and_eq_true_iff.mp h
  obtain ⟨hl, hp⟩ := Bool.and_eq_true_iff.mp h
  refine ⟨of_legal i w hl, ?_, ?_⟩
  swap
  · rintro ⟨r, hr, hne⟩
    rw [hr] at hkeeps
    exact hne (of_decide_eq_true hkeeps)
  obtain ⟨c, n⟩ := i
  cases c with
  | assignHandle dest source =>
    obtain ⟨hne, hn⟩ := Bool.and_eq_true_iff.mp hp
    intro f o _ _ _
    refine ⟨of_decide_eq_true hne, ?_⟩
    rintro ⟨hz, -⟩
    exact of_decide_eq_true hn hz
  | copyObject t o => cases hl
  | assignObject sameType dest t o => cases hl
  | copyTarget t source => cases hl
  | _ => trivial

def calls : List (Call × ℕ) :=
  [(.makeObject none 1 7 [], 5), (.temporarilyUse false, 0), (.makeObject none 2 9 [], 5),
    (.assignHandle (.member 0 0) (.stack 1), 5), (.restore, 0)]

end Runs

end PlinyCompute.Handles
