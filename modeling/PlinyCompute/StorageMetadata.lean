import Mathlib
import PlinyCompute.BinaryFormat
import PlinyCompute.StorageAccounting

namespace PlinyCompute.StorageMetadata

open Transition BinaryFormat StorageFrontend StorageHandlers

abbrev PageStats := AList fun _ : SetId => SetStats

def putStats (stats : SetStats) : List UInt8 := putLE 8 stats.size ++ putLE 8 stats.lastPage

def getStats : Reader SetStats := do
  let size ← getLE 8
  let lastPage ← getLE 8
  pure ⟨size, lastPage⟩

def putSet (e : Sigma fun _ : SetId => SetStats) : List UInt8 :=
  putString e.1.1 ++ (putString e.1.2 ++ putStats e.2)

def getSet : Reader (Sigma fun _ : SetId => SetStats) := do
  let dbName ← getString
  let setName ← getString
  let pageStat ← getStats
  pure ⟨(dbName, setName), pageStat⟩

def writeMetadata (pageStats : PageStats) : List UInt8 :=
  putLE 8 pageStats.entries.length ++ pageStats.entries.flatMap putSet

def readSets : Reader PageStats := do
  let numSets ← getLE 8
  getFold getSet (fun pageStats e => pageStats.insert e.1 e.2) numSets ∅

def init (file : List UInt8) : Option Frontend := do
  let (pageStats, _) ← readSets.run file
  pure ⟨pageStats, fun _ => none, fun _ => none⟩

def restart (f : Frontend) : Option Frontend := init (writeMetadata f.pageStats)

structure Fits (f : Frontend) : Prop where
  numSets : f.pageStats.entries.length < 256 ^ 8
  names : ∀ e ∈ f.pageStats.entries, e.1.1.length < 256 ^ 8 ∧ e.1.2.length < 256 ^ 8
  stats : ∀ e ∈ f.pageStats.entries, e.2.size < 256 ^ 8 ∧ e.2.lastPage < 256 ^ 8

structure Survives (f f' : Frontend) : Prop where
  validPage : ∀ set pageNum, getValidPage f' set pageNum = getValidPage f set pageNum
  size : ∀ set, (f'.pageStats.lookup set).map SetStats.size = (f.pageStats.lookup set).map SetStats.size

theorem reads_getStats {stats : SetStats} (h : stats.size < 256 ^ 8 ∧ stats.lastPage < 256 ^ 8) :
    Reads getStats (putStats stats) stats := by
  have hlast := (reads_getLE h.2).bind (f := fun lastPage => Pure.pure (SetStats.mk stats.size lastPage)) (Reads.pure _)
  rw [List.append_nil] at hlast
  exact (reads_getLE h.1).bind hlast

theorem reads_getSet {e : Sigma fun _ : SetId => SetStats} (hn : e.1.1.length < 256 ^ 8 ∧ e.1.2.length < 256 ^ 8)
    (hs : e.2.size < 256 ^ 8 ∧ e.2.lastPage < 256 ^ 8) : Reads getSet (putSet e) e := by
  have hlast := (reads_getStats hs).bind (f := fun pageStat =>
    Pure.pure (⟨(e.1.1, e.1.2), pageStat⟩ : Sigma fun _ : SetId => SetStats)) (Reads.pure _)
  rw [List.append_nil] at hlast
  exact (reads_getString hn.1).bind ((reads_getString hn.2).bind hlast)

theorem lookup_foldl_insert {l : List (Sigma fun _ : SetId => SetStats)} (h : (l.map Sigma.fst).Nodup) (m : PageStats)
    (set : SetId) : (l.foldl (fun m e => m.insert e.1 e.2) m).lookup set = (l.dlookup set).or (m.lookup set) := by
  induction l generalizing m with
  | nil => rfl
  | cons e l ih =>
    rw [List.map_cons, List.nodup_cons] at h
    rw [List.foldl_cons, ih h.2]
    by_cases hset : set = e.1
    · subst hset
      have hnone : l.dlookup e.1 = none := List.dlookup_eq_none.mpr h.1
      rw [hnone, Option.none_or, AList.lookup_insert, List.dlookup_cons_eq, Option.some_or]
    · rw [AList.lookup_insert_ne hset, List.dlookup_cons_ne _ _ hset]

theorem run_readSets {f : Frontend} (h : Fits f) : readSets.run (writeMetadata f.pageStats) =
    some (f.pageStats.entries.foldl (fun m e => m.insert e.1 e.2) ∅, []) := by
  have hsets : Reads (getFold getSet (fun pageStats e => pageStats.insert e.1 e.2) f.pageStats.entries.length
      (∅ : PageStats)) (f.pageStats.entries.flatMap putSet)
      (f.pageStats.entries.foldl (fun m e => m.insert e.1 e.2) ∅) :=
    reads_getFold (fun e he => reads_getSet (h.names e he) (h.stats e he)) _
  have hfile := (reads_getLE h.numSets).bind
    (f := fun numSets => getFold getSet (fun pageStats e => pageStats.insert e.1 e.2) numSets (∅ : PageStats)) hsets []
  rw [List.append_nil] at hfile
  exact hfile

theorem exists_restart {f : Frontend} (h : Fits f) : ∃ pageStats : PageStats,
    restart f = some ⟨pageStats, fun _ => none, fun _ => none⟩ ∧
      ∀ set, pageStats.lookup set = f.pageStats.lookup set := by
  refine ⟨f.pageStats.entries.foldl (fun m e => m.insert e.1 e.2) ∅, ?_, fun set => ?_⟩
  · rw [restart, init, run_readSets h]
    rfl
  · rw [lookup_foldl_insert f.pageStats.nodupKeys]
    simp [AList.lookup]

section

variable {f f' : Frontend}

theorem searchValid_congr {set : SetId} (h : ∀ p, isValid f' set p = isValid f set p) (left p : ℕ) :
    searchValid f' set left p = searchValid f set left p := by
  induction left generalizing p with
  | zero => rfl
  | succ left ih => rw [searchValid, searchValid, h, ih]

theorem getValidPage_self {set : SetId} {p : ℕ} (h : isValid f set p = true) : getValidPage f set p = some p := by
  cases hg : getValidPage f set p with
  | none =>
    rw [getValidPage_eq_none hg p le_rfl] at h
    cases h
  | some q =>
    obtain ⟨hle, -, hfirst⟩ := getValidPage_eq_some hg
    obtain rfl | hlt := Nat.eq_or_lt_of_le hle
    · rfl
    · rw [hfirst p le_rfl hlt] at h
      cases h

theorem survives_iff (f : Frontend) (h : Fits f) : (∃ f', restart f = some f' ∧ Survives f f') ↔
    ∀ set page, pageExists f set page = true →
      isPageFree f set page = false ∧ isPageBeingWrittenTo f set page = false := by
  obtain ⟨pageStats, hrun, hlookup⟩ := exists_restart h
  have hexists : ∀ set page, isValid ⟨pageStats, fun _ => none, fun _ => none⟩ set page = pageExists f set page := by
    intro set page
    simp [isValid, pageExists, isPageBeingWrittenTo, isPageFree, hlookup]
  constructor
  · rintro ⟨f', hf', hs⟩ set page hp
    rw [hrun, Option.some.injEq] at hf'
    subst hf'
    -- the new front-end serves every page that exists
    have hnew := hs.validPage set page
    rw [getValidPage_self ((hexists set page).trans hp)] at hnew
    have hold := (getValidPage_eq_some hnew.symm).2.1
    rw [isValid, Bool.and_eq_true, Bool.and_eq_true, Bool.not_eq_true', Bool.not_eq_true'] at hold
    exact ⟨hold.2, hold.1.2⟩
  · intro hnone
    have hvalid : ∀ set page, isValid ⟨pageStats, fun _ => none, fun _ => none⟩ set page = isValid f set page := by
      intro set page
      rw [hexists, isValid]
      cases hp : pageExists f set page with
      | false => rfl
      | true =>
        obtain ⟨hfree, hmark⟩ := hnone set page hp
        rw [hfree, hmark]
        rfl
    refine ⟨_, hrun, ?_, ?_⟩
    · intro set pageNum
      unfold getValidPage
      rw [hlookup]
      cases f.pageStats.lookup set with
      | none => rfl
      | some stats => exact searchValid_congr (hvalid set) _ _
    · intro set
      rw [hlookup]

theorem fits_singleton {set : SetId} {stats : SetStats} {written free : SetId → Option (Finset ℕ)}
    (hn : set.1.length < 256 ^ 8 ∧ set.2.length < 256 ^ 8) (hs : stats.size < 256 ^ 8 ∧ stats.lastPage < 256 ^ 8) :
    Fits ⟨AList.singleton set stats, written, free⟩ := by
  constructor
  · simp [AList.singleton]
  · intro e he
    obtain rfl : e = ⟨set, stats⟩ := by simpa [AList.singleton] using he
    exact hn
  · intro e he
    obtain rfl : e = ⟨set, stats⟩ := by simpa [AList.singleton] using he
    exact hs

theorem survives_two_pages : ∃ f', restart ⟨AList.singleton ([100], [115]) ⟨12, 1⟩, fun _ => none, fun _ => none⟩ = some f' ∧
    Survives ⟨AList.singleton ([100], [115]) ⟨12, 1⟩, fun _ => none, fun _ => none⟩ f' :=
  (survives_iff ⟨AList.singleton ([100], [115]) ⟨12, 1⟩, fun _ => none, fun _ => none⟩
    (fits_singleton (by decide) (by decide))).mpr fun _ _ _ => ⟨rfl, rfl⟩

theorem not_survives_failed_dispatch : ∃ w, Reachable (World.step true) (Event.Valid 1) Starts w ∧ w.Quiescent 1 ∧
    getValidPage w.frontend ([100], [115]) 0 = none ∧
    ∃ f', restart w.frontend = some f' ∧ getValidPage f' ([100], [115]) 0 = some 0 ∧ ¬ Survives w.frontend f' := by
  have hbound : ∀ {e : Event}, e.handler? = some 0 → ∀ h, e.handler? = some h → h < 1 := by
    intro e he h he'
    rw [he, Option.some.injEq] at he'
    omega
  have hrun : Reachable (World.step true) (Event.Valid 1) Starts _ :=
    .step (i := .handleDispatchFailure 0)
      (.step (i := .call 0 false)
        (.step (i := .call 0 true)
          (.step (i := .takePage 0 0)
            (.step (i := .dispatch 0 ([100], [115]) 5) (.start rfl) ⟨hbound rfl, rfl⟩ rfl)
            ⟨hbound rfl, _, rfl, nofun⟩ rfl)
          ⟨hbound rfl, _, _, _, _, rfl, nofun⟩ rfl)
        ⟨hbound rfl, _, _, _, _, rfl, nofun⟩ rfl)
      ⟨hbound rfl, _, _, _, rfl⟩ rfl
  refine ⟨_, hrun, quiescent_one rfl, rfl, ?_⟩
  refine ⟨_, rfl, rfl, fun hs => ?_⟩
  cases hs.validPage ([100], [115]) 0

end

end PlinyCompute.StorageMetadata
