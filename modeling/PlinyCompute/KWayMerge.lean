import Mathlib

namespace PlinyCompute.KWayMerge

variable {α κ : Type} [LinearOrder κ]

/-- A priority queue of runs, each compared by the key of its head. Which of several least runs is on the
top is left open, and so is everything about an exhausted run that shares the queue with another one. -/
structure MinQueue (key : α → κ) where
  pop : List (List α) → Option (List α × List (List α))
  pop_nil : pop [] = none
  pop_singleton : ∀ run, pop [run] = some (run, [])
  pop_least : ∀ runs, runs ≠ [] → [] ∉ runs → ∃ run rest, pop runs = some (run, rest) ∧
    runs.Perm (run :: rest) ∧ ∀ other ∈ runs, ∀ a ∈ run.head?, ∀ b ∈ other.head?, key a ≤ key b

structure Merging (key : α → κ) (runs : List (List α)) : Prop where
  live : [] ∉ runs
  sorted : ∀ run ∈ runs, run.Pairwise fun a b => key a ≤ key b

def MinQueue.advance {key : α → κ} (q : MinQueue key) (runs : List (List α)) : Option (α × List (List α)) :=
  match q.pop runs with
  | some (a :: run, rest) => some (a, if run.isEmpty then rest else run :: rest)
  | _ => none

section Advance

variable {key : α → κ} (q : MinQueue key)

theorem MinQueue.advance_nil : q.advance [] = none := by
  rw [advance, q.pop_nil]

theorem MinQueue.advance_exhausted : q.advance [[]] = none := by
  rw [advance, q.pop_singleton]

theorem Merging.le_of_head_le {runs : List (List α)} (h : Merging key runs) {k : κ}
    (hk : ∀ run ∈ runs, ∀ a ∈ run.head?, k ≤ key a) {b : α} (hb : b ∈ runs.flatten) : k ≤ key b := by
  obtain ⟨run, hrun, hb⟩ := List.mem_flatten.mp hb
  cases run with
  | nil => simp at hb
  | cons a run =>
    have ha : k ≤ key a := hk _ hrun a (by simp)
    obtain rfl | hb := List.mem_cons.mp hb
    · exact ha
    · exact ha.trans ((List.pairwise_cons.mp (h.sorted _ hrun)).1 b hb)

theorem Merging.of_perm {runs runs' : List (List α)} (h : Merging key runs) (hp : runs.Perm runs') :
    Merging key runs' := by
  constructor
  · exact fun hn => h.live (hp.mem_iff.mpr hn)
  · exact fun run hrun => h.sorted run (hp.mem_iff.mpr hrun)

theorem Merging.tail {a : α} {run : List α} {rest : List (List α)} (h : Merging key ((a :: run) :: rest)) :
    Merging key (if run.isEmpty then rest else run :: rest) ∧
      (if run.isEmpty then rest else run :: rest).flatten = run ++ rest.flatten := by
  have hrest : Merging key rest := by
    constructor
    · exact fun hn => h.live (List.mem_cons_of_mem _ hn)
    · exact fun other ho => h.sorted other (List.mem_cons_of_mem _ ho)
  cases run with
  | nil => exact ⟨hrest, rfl⟩
  | cons b run =>
    refine ⟨⟨?_, ?_⟩, rfl⟩
    · simpa using hrest.live
    · intro other ho
      obtain rfl | ho := List.mem_cons.mp ho
      · exact (List.pairwise_cons.mp (h.sorted _ List.mem_cons_self)).2
      · exact hrest.sorted other ho

theorem Merging.advance {runs : List (List α)} (h : Merging key runs) (hne : runs ≠ []) :
    ∃ a runs', q.advance runs = some (a, runs') ∧ Merging key runs' ∧
      runs.flatten.Perm (a :: runs'.flatten) ∧ ∀ b ∈ runs.flatten, key a ≤ key b := by
  obtain ⟨run, rest, hpop, hperm, hleast⟩ := q.pop_least runs hne h.live
  cases run with
  | nil => exact absurd (hperm.mem_iff.mpr List.mem_cons_self) h.live
  | cons a run =>
    obtain ⟨hmerging, hflat⟩ := (h.of_perm hperm).tail
    refine ⟨a, _, by rw [MinQueue.advance, hpop], hmerging, ?_, ?_⟩
    · rw [hflat]
      exact hperm.flatten
    · intro b hb
      exact h.le_of_head_le (fun other ho b hb => hleast other ho a (by simp) b hb) hb

end Advance

section Scan

variable (key : α → κ)

def headLe (run other : List α) : Bool :=
  run.head?.all fun a => other.head?.all fun b => key a ≤ key b

def least : List (List α) → Option (List α × List (List α))
  | [] => none
  | run :: runs =>
    match least runs with
    | none => some (run, [])
    | some (other, rest) => if headLe key run other then some (run, runs) else some (other, run :: rest)

variable {key}

theorem headLe_iff {run other : List α} :
    headLe key run other = true ↔ ∀ a ∈ run.head?, ∀ b ∈ other.head?, key a ≤ key b := by
  cases run <;> cases other <;> simp [headLe]

theorem least_spec {runs : List (List α)} (hne : runs ≠ []) (hlive : [] ∉ runs) :
    ∃ run rest, least key runs = some (run, rest) ∧ runs.Perm (run :: rest) ∧
      ∀ other ∈ runs, ∀ a ∈ run.head?, ∀ b ∈ other.head?, key a ≤ key b := by
  induction runs with
  | nil => exact absurd rfl hne
  | cons run runs ih =>
    cases runs with
    | nil =>
      refine ⟨run, [], rfl, List.Perm.refl _, ?_⟩
      intro other ho a ha b hb
      rw [List.mem_singleton.mp ho] at hb
      rw [Option.mem_unique ha hb]
    | cons run' runs =>
      obtain ⟨other, rest, hleast, hperm, hle⟩ := ih (by simp) fun hn => hlive (List.mem_cons_of_mem _ hn)
      rw [least, hleast]
      dsimp only
      split_ifs with hhead
      · refine ⟨run, _, rfl, List.Perm.refl _, ?_⟩
        intro o ho a ha b hb
        obtain rfl | ho := List.mem_cons.mp ho
        · rw [Option.mem_unique ha hb]
        · cases other with
          | nil => exact absurd (List.mem_cons_of_mem run (hperm.mem_iff.mpr List.mem_cons_self)) hlive
          | cons c other =>
            exact (headLe_iff.mp hhead a ha c (by simp)).trans (hle o ho c (by simp) b hb)
      · refine ⟨other, run :: rest, rfl, ?_, ?_⟩
        · exact (hperm.cons run).trans (List.Perm.swap other run rest)
        · intro o ho a ha b hb
          obtain rfl | ho := List.mem_cons.mp ho
          · have hnot := mt headLe_iff.mpr hhead
            push Not at hnot
            obtain ⟨c, hc, d, hd, hlt⟩ := hnot
            rw [Option.mem_unique ha hd, Option.mem_unique hb hc]
            exact hlt.le
          · exact hle o ho a ha b hb

variable (key)

def MinQueue.scan : MinQueue key where
  pop := least key
  pop_nil := rfl
  pop_singleton _ := rfl
  pop_least _ := least_spec

end Scan

end PlinyCompute.KWayMerge
