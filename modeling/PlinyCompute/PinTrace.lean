import Mathlib.Data.List.Basic

namespace PlinyCompute.PinTrace

variable {P : Type}

inductive Event (P : Type)
  | use (p : P)
  | pin (p : P)
  | unpin (p : P)
  deriving DecidableEq, Repr

def Unpinned : List (Event P) → P → Prop
  | [], _ => False
  | .use _ :: t, p => Unpinned t p
  | .pin q :: t, p => p ≠ q ∧ Unpinned t p
  | .unpin q :: t, p => p = q ∨ Unpinned t p

def Safe : List (Event P) → Prop
  | [] => True
  | .use p :: t => ¬ Unpinned t p ∧ Safe t
  | .pin _ :: t => Safe t
  | .unpin _ :: t => Safe t

instance Unpinned.decidable [DecidableEq P] : (t : List (Event P)) → (p : P) → Decidable (Unpinned t p)
  | [], _ => inferInstanceAs (Decidable False)
  | .use _ :: t, p => Unpinned.decidable t p
  | .pin q :: t, p =>
    have := Unpinned.decidable t p
    inferInstanceAs (Decidable (p ≠ q ∧ Unpinned t p))
  | .unpin q :: t, p =>
    have := Unpinned.decidable t p
    inferInstanceAs (Decidable (p = q ∨ Unpinned t p))

instance Safe.decidable [DecidableEq P] : (t : List (Event P)) → Decidable (Safe t)
  | [] => inferInstanceAs (Decidable True)
  | .use p :: t =>
    have := Safe.decidable t
    inferInstanceAs (Decidable (¬ Unpinned t p ∧ Safe t))
  | .pin _ :: t => Safe.decidable t
  | .unpin _ :: t => Safe.decidable t

variable {t u : List (Event P)} {p q : P}

@[simp] theorem unpinned_uses (ps : List P) : Unpinned (ps.map .use ++ t) p ↔ Unpinned t p := by
  induction ps with
  | nil => rfl
  | cons q ps ih => exact ih

@[simp] theorem unpinned_pin : Unpinned (.pin q :: t) p ↔ p ≠ q ∧ Unpinned t p := Iff.rfl

@[simp] theorem unpinned_unpin : Unpinned (.unpin q :: t) p ↔ p = q ∨ Unpinned t p := Iff.rfl

@[simp] theorem safe_pin : Safe (.pin p :: t) ↔ Safe t := Iff.rfl

@[simp] theorem safe_unpin : Safe (.unpin p :: t) ↔ Safe t := Iff.rfl

theorem safe_uses {ps : List P} : Safe (ps.map .use ++ t) ↔ (∀ p ∈ ps, ¬ Unpinned t p) ∧ Safe t := by
  induction ps with
  | nil => simp
  | cons p ps ih =>
    have hcons : Safe ((p :: ps).map .use ++ t) ↔
        ¬ Unpinned (ps.map .use ++ t) p ∧ Safe (ps.map .use ++ t) := Iff.rfl
    rw [hcons, unpinned_uses, ih, List.forall_mem_cons, and_assoc]

theorem Safe.of_append (h : Safe (u ++ t)) : Safe t := by
  induction u with
  | nil => exact h
  | cons e u ih =>
    cases e with
    | use p => exact ih h.2
    | pin p => exact ih h
    | unpin p => exact ih h

theorem Safe.of_suffix (h : Safe u) (hs : t <:+ u) : Safe t := by
  obtain ⟨v, rfl⟩ := hs
  exact h.of_append

end PlinyCompute.PinTrace
