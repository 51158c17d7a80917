import Mathlib

namespace PlinyCompute.ByteStream

variable {α : Type}

inductive Ending
  | waiting
  | closed
  | failed
  deriving DecidableEq, Repr

structure Arriving (α : Type) where
  pieces : List (List α)
  ending : Ending
  nonempty : [] ∉ pieces

inductive Outcome (α : Type)
  | got (items : List α)
  | closed
  | failed

inductive Ended
  | complete
  | closed
  | failed
  deriving DecidableEq, Repr

namespace Arriving

def items (s : Arriving α) : List α := s.pieces.flatten

def read (most : ℕ) : Arriving α → Option (Outcome α × Arriving α)
  | ⟨[], .waiting, _⟩ => none
  | ⟨[], .closed, h⟩ => some (.closed, ⟨[], .closed, h⟩)
  | ⟨[], .failed, h⟩ => some (.failed, ⟨[], .failed, h⟩)
  | ⟨piece :: pieces, ending, h⟩ =>
    if hl : piece.length ≤ most then
      some (.got piece, ⟨pieces, ending, fun hp => h (List.mem_cons_of_mem _ hp)⟩)
    else
      some (.got (piece.take most), ⟨piece.drop most :: pieces, ending, by
        rw [List.mem_cons, not_or]
        refine ⟨fun hd => hl ?_, fun hp => h (List.mem_cons_of_mem _ hp)⟩
        rw [eq_comm, List.drop_eq_nil_iff] at hd
        exact hd⟩)

/-- Reads of at most `limit` of what is wanted still, until all of it is there. Every read brings something, so that
`fuel` reads are enough for as many items. -/
def readLoop (limit : ℕ → ℕ) : ℕ → ℕ → Arriving α → Option (List α × Ended × Arriving α)
  | _, 0, s => some ([], .complete, s)
  | 0, _ + 1, _ => none
  | fuel + 1, wanted + 1, s =>
    match s.read (limit (wanted + 1)) with
    | none => none
    | some (.closed, s) => some ([], .closed, s)
    | some (.failed, s) => some ([], .failed, s)
    | some (.got items, s) =>
      (readLoop limit fuel (wanted + 1 - items.length) s).map fun r => (items ++ r.1, r.2)

end Arriving

structure Whole (α : Type) where
  items : List α
  ending : Ending
  deriving DecidableEq

def Whole.take (wanted : ℕ) (w : Whole α) : Option (List α × Ended × Whole α) :=
  if wanted ≤ w.items.length then some (w.items.take wanted, .complete, ⟨w.items.drop wanted, w.ending⟩)
  else
    match w.ending with
    | .waiting => none
    | .closed => some (w.items, .closed, ⟨[], .closed⟩)
    | .failed => some (w.items, .failed, ⟨[], .failed⟩)

def Arriving.whole (s : Arriving α) : Whole α := ⟨s.items, s.ending⟩

def Limits (limit : ℕ → ℕ) : Prop := ∀ n, 0 < n → 0 < limit n ∧ limit n ≤ n

theorem limits_id : Limits id := fun _ hn => ⟨hn, le_rfl⟩

theorem limits_min {most : ℕ} (hm : 0 < most) : Limits (min · most) :=
  fun _ hn => ⟨lt_min hn hm, min_le_left _ _⟩

variable {s : Arriving α} {limit : ℕ → ℕ} {wanted : ℕ}

theorem read_got {most : ℕ} {items : List α} {s' : Arriving α} (hm : 0 < most)
    (h : s.read most = some (.got items, s')) :
    s.whole = ⟨items ++ s'.whole.items, s'.whole.ending⟩ ∧ 0 < items.length ∧ items.length ≤ most := by
  obtain ⟨pieces, ending, hn⟩ := s
  cases pieces with
  | nil => cases ending <;> simp [Arriving.read] at h
  | cons piece pieces =>
    have hp : 0 < piece.length := by
      apply List.length_pos_of_ne_nil
      rintro rfl
      exact hn List.mem_cons_self
    rw [Arriving.read] at h
    split_ifs at h with hl
    · cases h
      exact ⟨by simp [Arriving.whole, Arriving.items], hp, hl⟩
    · cases h
      refine ⟨?_, ?_, ?_⟩
      · simp [Arriving.whole, Arriving.items, ← List.append_assoc]
      · rw [List.length_take]
        omega
      · rw [List.length_take]
        omega

theorem read_none {most : ℕ} (h : s.read most = none) : s.whole = ⟨[], .waiting⟩ := by
  obtain ⟨pieces, ending, hn⟩ := s
  cases pieces with
  | nil => cases ending <;> simp_all [Arriving.read, Arriving.whole, Arriving.items]
  | cons piece pieces =>
    rw [Arriving.read] at h
    split_ifs at h

theorem read_closed {most : ℕ} {s' : Arriving α} (h : s.read most = some (.closed, s')) :
    s.whole = ⟨[], .closed⟩ ∧ s'.whole = ⟨[], .closed⟩ := by
  obtain ⟨pieces, ending, hn⟩ := s
  cases pieces with
  | nil =>
    cases ending with
    | closed =>
      cases h
      exact ⟨rfl, rfl⟩
    | waiting => cases h
    | failed => simp [Arriving.read] at h
  | cons piece pieces =>
    rw [Arriving.read] at h
    split_ifs at h <;> simp at h

theorem read_failed {most : ℕ} {s' : Arriving α} (h : s.read most = some (.failed, s')) :
    s.whole = ⟨[], .failed⟩ ∧ s'.whole = ⟨[], .failed⟩ := by
  obtain ⟨pieces, ending, hn⟩ := s
  cases pieces with
  | nil =>
    cases ending with
    | failed =>
      cases h
      exact ⟨rfl, rfl⟩
    | waiting => cases h
    | closed => simp [Arriving.read] at h
  | cons piece pieces =>
    rw [Arriving.read] at h
    split_ifs at h <;> simp at h

theorem Whole.take_append {items : List α} {w : Whole α} (hl : items.length ≤ wanted) :
    (⟨items ++ w.items, w.ending⟩ : Whole α).take wanted =
      (w.take (wanted - items.length)).map fun r => (items ++ r.1, r.2) := by
  have hle : wanted ≤ (items ++ w.items).length ↔ wanted - items.length ≤ w.items.length := by
    rw [List.length_append]
    omega
  unfold Whole.take
  by_cases h : wanted - items.length ≤ w.items.length
  · rw [if_pos h, if_pos (hle.mpr h)]
    simp [List.take_append, List.drop_append, List.take_of_length_le hl, List.drop_eq_nil_of_le hl]
  · rw [if_neg h, if_neg (mt hle.mp h)]
    cases w.ending <;> rfl

theorem readLoop_whole (hlimit : Limits limit) {fuel : ℕ} (hf : wanted ≤ fuel) :
    (s.readLoop limit fuel wanted).map (fun r => (r.1, r.2.1, r.2.2.whole)) = s.whole.take wanted := by
  induction fuel generalizing wanted s with
  | zero =>
    obtain rfl : wanted = 0 := by omega
    simp [Arriving.readLoop, Whole.take, Arriving.whole]
  | succ fuel ih =>
    cases wanted with
    | zero => simp [Arriving.readLoop, Whole.take, Arriving.whole]
    | succ wanted =>
      have hpos := hlimit (wanted + 1) (by omega)
      rw [Arriving.readLoop]
      cases hr : s.read (limit (wanted + 1)) with
      | none =>
        rw [read_none hr]
        rfl
      | some r =>
        obtain ⟨outcome, s'⟩ := r
        cases outcome with
        | closed =>
          obtain ⟨hs, hs'⟩ := read_closed hr
          rw [hs]
          simp [hs', Whole.take]
        | failed =>
          obtain ⟨hs, hs'⟩ := read_failed hr
          rw [hs]
          simp [hs', Whole.take]
        | got items =>
          obtain ⟨hs, hp, hl⟩ := read_got hpos.1 hr
          rw [hs, Whole.take_append (hl.trans hpos.2), ← ih (by omega)]
          simp [Option.map_map, Function.comp_def]

end PlinyCompute.ByteStream
