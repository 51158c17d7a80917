import PlinyCompute.MapRefinement
import PlinyCompute.RequestSizes

namespace PlinyCompute.Allocator.Growth

def Holds (own : UInt64) (g : Growth) : Prop :=
  CHUNK_HEADER_SIZE + (4 + own.toNat + g.elementSize * g.slots) ≤ bytesNeeded (g.request own).toNat

instance (own : UInt64) (g : Growth) : Decidable (g.Holds own) :=
  inferInstanceAs (Decidable (_ ≤ bytesNeeded (g.request own).toNat))

theorem holds_iff {g : Growth} {own : UInt64} : g.Holds own ↔ g.elementSize * g.slots + own.toNat + 11 < 2 ^ 32 := by
  unfold Holds CHUNK_HEADER_SIZE
  constructor
  · intro h
    have hlt := bytesNeeded_lt (g.request own).toNat
    have hmod := bytesNeeded_mod (g.request own).toNat
    omega
  · intro h
    obtain ⟨-, hsum, hrounded⟩ := exact_iff.mpr h
    rw [hrounded, hsum]
    unfold CHUNK_HEADER_SIZE
    omega

end PlinyCompute.Allocator.Growth

namespace PlinyCompute.PdbMap

open Transition
open Allocator (Growth)

/-- The bytes of a slot, which begins with its hash, and of an array object without its slots. -/
structure Sizes where
  objSize : UInt32
  own : UInt64
  hash : 8 ≤ objSize.toNat

inductive Stop
  | thrown (e : Thrown)
  -- the array goes on behind its chunk
  | undefined
  deriving DecidableEq, Repr

namespace Sizes

def Fits (s : Sizes) (slots : ℕ) : Prop := s.objSize.toNat * slots + s.own.toNat + 11 < 2 ^ 32

instance (s : Sizes) (slots : ℕ) : Decidable (s.Fits slots) := inferInstanceAs (Decidable (_ < _))

variable {s : Sizes} {slots slots' : ℕ}

theorem Fits.mono (h : s.Fits slots') (hle : slots ≤ slots') : s.Fits slots := by
  have := Nat.mul_le_mul_left s.objSize.toNat hle
  unfold Fits at h ⊢
  omega

theorem Fits.slots_lt (h : s.Fits slots) : slots < 2 ^ 29 := by
  have := Nat.mul_le_mul_right slots s.hash
  unfold Fits at h
  omega

theorem holds_first {initSize : UInt32} :
    (Growth.resize s.objSize.toUInt64 (if initSize < 2 then 2 else initSize)).Holds s.own ↔
      s.Fits (max initSize.toNat 2) := by
  have hlt : initSize < 2 ↔ initSize.toNat < 2 := UInt32.lt_iff_toNat_lt
  have hslots : (if initSize < 2 then 2 else initSize).toNat = max initSize.toNat 2 := by
    split_ifs with h
    · exact (Nat.max_eq_right (hlt.mp h).le).symm
    · exact (Nat.max_eq_left (Nat.le_of_not_lt (mt hlt.mpr h))).symm
  rw [Growth.holds_iff, Growth.elementSize, Growth.slots, UInt32.toNat_toUInt64, hslots]
  rfl

theorem holds_double (h : s.Fits slots) :
    (Growth.pairArray s.objSize (.ofNat slots)).Holds s.own ↔ s.Fits (slots * 2) := by
  have hslots : (UInt32.ofNat slots).toNat = slots := by
    rw [UInt32.toNat_ofNat', Nat.mod_eq_of_lt]
    have := h.slots_lt
    omega
  rw [Growth.holds_iff, Growth.elementSize, Growth.slots, hslots]
  rfl

end Sizes

def grow (slots used : ℕ) : ℕ := if slots * 667 / 1000 ≤ used then slots * 2 else slots

def slotsAfter (slots : ℕ) : ℕ → ℕ
  | 0 => slots
  | used + 1 => grow (slotsAfter slots used) used

theorem le_grow (slots used : ℕ) : slots ≤ grow slots used := by
  unfold grow
  split <;> omega

theorem slotsAfter_mono (slots : ℕ) : Monotone (slotsAfter slots) :=
  monotone_nat_of_le_succ fun used => le_grow (slotsAfter slots used) used

variable {K V : Type}

theorem PairArray.store_numSlots (a : PairArray K V) (slot : ℕ) (v : V) : (a.store slot v).numSlots = a.numSlots :=
  List.length_modify _ _ _

variable [DecidableEq K]

def Call.keys : Call K V → Finset K
  | .read k => {k}
  | .assign k _ => {k}
  | _ => ∅

def inserted (calls : List (Call K V)) : Finset K := calls.foldr (fun c keys => c.keys ∪ keys) ∅

theorem FiniteMap.call_dom (t : FiniteMap K V) (c : Call K V) : (t.call c).1.dom = t.dom ∪ c.keys := by
  cases c with
  | read k => exact (Finset.insert_eq k t.dom).trans (Finset.union_comm _ _)
  | assign k v => exact (Finset.insert_eq k t.dom).trans (Finset.union_comm _ _)
  | count k => exact (Finset.union_empty _).symm
  | size => exact (Finset.union_empty _).symm
  | iterate => exact (Finset.union_empty _).symm

variable [Inhabited V]

namespace Map

def ofSizeIn (s : Sizes) (initSize : UInt32) : Except Stop (Map K V) :=
  match Map.ofSize initSize.toNat with
  | .error e => .error (.thrown e)
  | .ok m =>
    if (Growth.resize s.objSize.toUInt64 (if initSize < 2 then 2 else initSize)).Holds s.own then .ok m
    else .error .undefined

variable (hash : K → ℕ)

def doubles (c : Call K V) (m : Map K V) : Bool :=
  match c with
  | .read k => m.count hash k = 0 ∧ m.myArray.isOverFull
  | .assign k _ => m.count hash k = 0 ∧ m.myArray.isOverFull
  | _ => false

/-- A doubled array is filled before the call goes on. -/
def callIn (s : Sizes) (c : Call K V) (m : Map K V) : Except Stop (Map K V × Result K V) :=
  if m.doubles hash c ∧ ¬(Growth.pairArray s.objSize (.ofNat m.myArray.numSlots)).Holds s.own then .error .undefined
  else (m.call hash c).mapError .thrown

end Map

def run (s : Sizes) (hash : K → ℕ) (initSize : UInt32) (calls : List (Call K V)) : Except Stop (List (Result K V)) := do
  let m ← Map.ofSizeIn s initSize
  observe (Map.callIn hash s) calls m

section Slots

variable {hash : K → ℕ}

namespace PairArray

theorem index_numSlots {a a' : PairArray K V} {k : K} {slot : ℕ} (h : a.index hash k = some (a', slot)) :
    a'.numSlots = a.numSlots := by
  obtain ⟨found, -, hfound⟩ := Option.map_eq_some_iff.mp h
  split at hfound
  · cases hfound
    rfl
  · cases hfound
    exact List.length_set

theorem moveAll_numSlots {data : List (Option (MapRecordClass K V))} {newOne temp : PairArray K V} {moves : Option ℕ}
    (h : (moveAll hash moves data newOne).2 = .ok temp) : temp.numSlots = newOne.numSlots := by
  induction data generalizing newOne moves with
  | nil =>
    cases h
    rfl
  | cons entry rest ih =>
    cases entry with
    | none => exact ih h
    | some e =>
      rw [moveAll] at h
      split_ifs at h with hmoves
      split at h
      · cases h
      · next _ a slot hindex =>
        exact (ih h).trans ((store_numSlots a slot e.value).trans (index_numSlots hindex))

end PairArray

namespace Map

theorem construct_numSlots {a : PairArray K V} {k : K} {m' : Map K V} {slot : ℕ}
    (h : construct hash .enough a k = (m', .ok slot)) : m'.myArray.numSlots = a.numSlots := by
  rw [construct, if_neg (by simp)] at h
  split at h
  · cases h
  · next _ a' slot' hindex =>
    cases h
    exact PairArray.index_numSlots hindex

theorem index_numSlots {m m' : Map K V} {k : K} {slot : ℕ} (h : m.index hash .enough k = (m', .ok slot)) :
    m'.myArray.numSlots =
      if m.count hash k = 0 ∧ m.myArray.isOverFull then m.myArray.numSlots * 2 else m.myArray.numSlots := by
  rw [index] at h
  split_ifs at h ⊢
  · split at h
    · cases h
    · next _ old temp hdouble =>
      rw [construct_numSlots h, PairArray.moveAll_numSlots (congrArg Prod.snd hdouble)]
      exact List.length_replicate
  · exact construct_numSlots h

theorem call_numSlots {m m' : Map K V} {c : Call K V} {r : Result K V} (h : m.call hash c = .ok (m', r)) :
    m'.myArray.numSlots = if m.doubles hash c then m.myArray.numSlots * 2 else m.myArray.numSlots := by
  cases c with
  | read k =>
    rw [call] at h
    split at h
    · cases h
    · next _ m₁ slot hindex =>
      cases h
      rw [index_numSlots hindex]
      simp [doubles]
  | assign k v =>
    rw [call] at h
    split at h
    · cases h
    · next _ m₁ slot hindex =>
      cases h
      rw [store, PairArray.store_numSlots, index_numSlots hindex]
      simp [doubles]
  | count k =>
    cases h
    rfl
  | size =>
    cases h
    rfl
  | iterate =>
    rw [call, visit_begin] at h
    cases h
    rfl

end Map

namespace Refines

variable {m : Map K V} {t : FiniteMap K V}

theorem doubles_iff (h : Refines hash m t) (c : Call K V) :
    m.doubles hash c = true ↔ ¬c.keys ⊆ t.dom ∧ m.myArray.numSlots * 667 / 1000 ≤ t.dom.card := by
  have hfull : m.myArray.isOverFull = true ↔ m.myArray.numSlots * 667 / 1000 ≤ t.dom.card := by
    rw [← h.size]
    exact decide_eq_true_iff
  have hcount (k : K) : m.count hash k = 0 ↔ ¬({k} : Finset K) ⊆ t.dom := by
    rw [h.count, Finset.singleton_subset_iff]
    split_ifs with hk <;> simp [hk]
  cases c with
  | read k => rw [Map.doubles, decide_eq_true_iff, hfull, hcount, Call.keys]
  | assign k v => rw [Map.doubles, decide_eq_true_iff, hfull, hcount, Call.keys]
  | count k => simp [Map.doubles, Call.keys]
  | size => simp [Map.doubles, Call.keys]
  | iterate => simp [Map.doubles, Call.keys]

theorem numSlots_call (h : Refines hash m t) {s₀ : ℕ} (hslots : m.myArray.numSlots = slotsAfter s₀ t.dom.card)
    (c : Call K V) :
    (if m.doubles hash c then m.myArray.numSlots * 2 else m.myArray.numSlots) =
      slotsAfter s₀ (t.call c).1.dom.card := by
  rw [FiniteMap.call_dom]
  by_cases hkeys : c.keys ⊆ t.dom
  · have hnot : ¬m.doubles hash c = true := fun hd => ((h.doubles_iff c).mp hd).1 hkeys
    rw [if_neg hnot, Finset.union_eq_left.mpr hkeys, hslots]
  · have hcard : (t.dom ∪ c.keys).card = t.dom.card + 1 := by
      obtain ⟨k, hk⟩ : ∃ k, c.keys = {k} := by
        cases c with
        | read k => exact ⟨k, rfl⟩
        | assign k v => exact ⟨k, rfl⟩
        | count k => exact absurd (Finset.empty_subset _) hkeys
        | size => exact absurd (Finset.empty_subset _) hkeys
        | iterate => exact absurd (Finset.empty_subset _) hkeys
      rw [hk, Finset.singleton_subset_iff] at hkeys
      rw [hk, Finset.union_comm, ← Finset.insert_eq, Finset.card_insert_of_notMem hkeys]
    rw [hcard, slotsAfter, grow, ← hslots]
    exact if_congr ((h.doubles_iff c).trans (and_iff_right hkeys)) rfl rfl

variable {s : Sizes} {s₀ : ℕ}

theorem callIn (h : Refines hash m t) (hslots : m.myArray.numSlots = slotsAfter s₀ t.dom.card)
    (hfits : s.Fits m.myArray.numSlots) (c : Call K V) :
    (s.Fits (slotsAfter s₀ (t.call c).1.dom.card) ∧ ∃ m', m.callIn hash s c = .ok (m', (t.call c).2) ∧
      Refines hash m' (t.call c).1 ∧ m'.myArray.numSlots = slotsAfter s₀ (t.call c).1.dom.card) ∨
    ¬s.Fits (slotsAfter s₀ (t.call c).1.dom.card) ∧ m.callIn hash s c = .error .undefined := by
  have hnext := h.numSlots_call hslots c
  have hstop : (m.doubles hash c ∧
      ¬(Growth.pairArray s.objSize (.ofNat m.myArray.numSlots)).Holds s.own) ↔
        ¬s.Fits (slotsAfter s₀ (t.call c).1.dom.card) := by
    rw [Sizes.holds_double hfits, ← hnext]
    split_ifs with hd
    · exact and_iff_right hd
    · exact iff_of_false (fun hdoubled => hd hdoubled.1) (not_not_intro hfits)
  by_cases hfit : s.Fits (slotsAfter s₀ (t.call c).1.dom.card)
  · obtain ⟨m', hm', hrel⟩ := h.call c
    refine Or.inl ⟨hfit, m', ?_, hrel, (Map.call_numSlots hm').trans hnext⟩
    rw [Map.callIn, if_neg (mt hstop.mp (not_not_intro hfit)), hm']
    rfl
  · exact Or.inr ⟨hfit, by rw [Map.callIn, if_pos (hstop.mpr hfit)]⟩

theorem observe_iff (h : Refines hash m t) (hslots : m.myArray.numSlots = slotsAfter s₀ t.dom.card)
    (hfits : s.Fits m.myArray.numSlots) (calls : List (Call K V)) :
    observe (Map.callIn hash s) calls m = .ok (specify FiniteMap.call calls t) ↔
      s.Fits (slotsAfter s₀ (t.dom ∪ inserted calls).card) := by
  induction calls generalizing m t with
  | nil =>
    rw [inserted, List.foldr_nil, Finset.union_empty, ← hslots]
    exact iff_of_true rfl hfits
  | cons c calls ih =>
    have hdom : t.dom ∪ inserted (c :: calls) = (t.call c).1.dom ∪ inserted calls := by
      rw [inserted, List.foldr_cons, FiniteMap.call_dom, Finset.union_assoc]
      rfl
    rw [hdom]
    obtain ⟨hfit, m', hcall, hrel, hslots'⟩ | ⟨hfit, hcall⟩ := h.callIn hslots hfits c
    · rw [observe, hcall, ok_bind, ← ih hrel hslots' (hslots' ▸ hfit)]
      dsimp only
      cases observe (Map.callIn hash s) calls m' with
      | error e => simp [bind, Except.bind]
      | ok os => simp [ok_bind, specify]
    · rw [observe, hcall]
      constructor
      · intro hok
        cases hok
      · intro hall
        exact absurd (hall.mono (slotsAfter_mono s₀ (Finset.card_le_card Finset.subset_union_left))) hfit

end Refines

end Slots

/-- What a program sees of a map is what it sees of the mathematical map, as long as the slots that its keys come to
need fit into the 32 bits of a request. -/
theorem map_refines_finiteMap_iff (s : Sizes) (hash : K → ℕ) (initSize : UInt32) (calls : List (Call K V)) :
    run s hash initSize calls =
        .ok (specify FiniteMap.call calls (⟨∅, fun _ => default⟩ : FiniteMap K V)) ↔
      s.Fits (slotsAfter (max initSize.toNat 2) (inserted calls).card) := by
  have hstart : s.Fits (slotsAfter (max initSize.toNat 2) (inserted calls).card) → s.Fits (max initSize.toNat 2) :=
    fun h => h.mono (slotsAfter_mono _ (Nat.zero_le _))
  rw [run, Map.ofSizeIn]
  cases h₀ : (Map.ofSize initSize.toNat : Except Thrown (Map K V)) with
  | error e =>
    refine iff_of_false (fun h => by cases h) fun hfits => ?_
    have hlt := (hstart hfits).slots_lt
    rw [Map.ofSize, if_neg (by omega)] at h₀
    cases h₀
  | ok m₀ =>
    obtain ⟨hrel, hslots⟩ := refines_ofSize h₀
    dsimp only
    by_cases hfits : s.Fits (max initSize.toNat 2)
    · rw [if_pos (Sizes.holds_first.mpr hfits), ok_bind, hrel.observe_iff hslots (hslots ▸ hfits), Finset.empty_union]
    · rw [if_neg (mt Sizes.holds_first.mp hfits)]
      exact iff_of_false (fun h => by cases h) (mt hstart hfits)

theorem not_map_refines_finiteMap :
    ¬run ⟨16, 40, by decide⟩ (fun k : ℕ => k) (2 ^ 28) ([] : List (Call ℕ ℕ)) =
      .ok (specify FiniteMap.call [] ⟨∅, fun _ => default⟩) := by
  have h₀ : ∃ m : Map ℕ ℕ, Map.ofSize (2 ^ 28 : UInt32).toNat = .ok m := ⟨_, if_neg (by decide)⟩
  obtain ⟨m, hm⟩ := h₀
  have hhold : ¬(Growth.resize (16 : UInt32).toUInt64 (if (2 ^ 28 : UInt32) < 2 then 2 else 2 ^ 28)).Holds 40 := by
    decide
  rw [run, Map.ofSizeIn, hm]
  dsimp only
  rw [if_neg hhold]
  intro h
  cases h

end PlinyCompute.PdbMap
