import Mathlib
import PlinyCompute.Transition

namespace PlinyCompute.PdbVector

open Transition
open List (length_append length_replicate length_singleton length_take append_nil replicate length_dropLast getElem_append_left getElem_append_right)

variable {T : Type}

inductive Fault
  -- an access at an index beyond the slots that were allocated with the array
  | outOfBounds
  -- a slot is read that holds no object
  | unconstructed
  deriving DecidableEq

/-- A slot in which no object has been constructed is `none`. -/
structure Array (T : Type) where
  slots : List (Option T)
  usedSlots : ℕ
  deriving DecidableEq

namespace Array

def numSlots (a : Array T) : ℕ := a.slots.length

def isFull (a : Array T) : Bool := a.usedSlots = a.numSlots

def write (which : ℕ) (val : T) (a : Array T) : Except Fault (Array T) :=
  if which < a.numSlots then .ok { a with slots := a.slots.set which (some val) } else .error .outOfBounds

def resize (howMany : ℕ) (a : Array T) : Array T :=
  let min := if howMany < a.usedSlots then howMany else a.usedSlots
  ⟨a.slots.take min ++ replicate (howMany - min) none, min⟩

theorem resize_of_le (a : Array T) {howMany : ℕ} (hle : a.usedSlots ≤ howMany) :
    a.resize howMany = ⟨a.slots.take a.usedSlots ++ replicate (howMany - a.usedSlots) none, a.usedSlots⟩ := by
  unfold resize
  dsimp only
  rw [if_neg (Nat.not_lt.mpr hle)]

def doubleSize (a : Array T) : Array T := a.resize (a.numSlots * 2 % 2 ^ 32)

def getObj (which : ℕ) (a : Array T) : Except Fault T :=
  match a.slots[which]? with
  | none => .error .outOfBounds
  | some none => .error .unconstructed
  | some (some val) => .ok val

def assign (which : ℕ) (val : T) (a : Array T) : Except Fault (Array T) :=
  if a.usedSlots < which then .ok a else a.write which val

def pushBack [Inhabited T] (val : Option T) (a : Array T) : Except Fault (Array T) := do
  let a ← a.write a.usedSlots (val.getD default)
  return { a with usedSlots := a.usedSlots + 1 }

def popBack (a : Array T) : Array T :=
  if a.usedSlots = 0 then a else ⟨a.slots.set (a.usedSlots - 1) none, a.usedSlots - 1⟩

end Array

abbrev Vector (T : Type) := Array T

namespace Vector

def ofSize [Inhabited T] (initSize usedSize : UInt32) : Vector T :=
  let used := replicate usedSize.toNat (some default)
  ⟨used ++ replicate (initSize.toNat - usedSize.toNat) none, usedSize.toNat⟩

def size (v : Vector T) : ℕ := v.usedSlots

def capacity (v : Vector T) : ℕ := v.numSlots

def empty : Vector T := ⟨[none], 0⟩

def reserve (newCap : ℕ) (v : Vector T) : Vector T := if v.capacity < newCap then v.resize newCap else v

def shrinkToFit (v : Vector T) : Vector T := if v.size < v.capacity then Array.resize v.size v else v

def popTo (toMe : ℕ) : ℕ → Vector T → Vector T
  | 0, v => v
  | rounds + 1, v => if v.size = toMe then v else popTo toMe rounds v.popBack

variable [Inhabited T]

def pushBack (val : Option T) (v : Vector T) : Except Fault (Vector T) :=
  Array.pushBack val (if v.isFull then v.doubleSize else v)

def pushTo (toMe : ℕ) : ℕ → Vector T → Except Fault (Vector T)
  | 0, v => .ok v
  | rounds + 1, v =>
    if v.size = toMe then .ok v
    else do
      let v ← Vector.pushBack none v
      pushTo toMe rounds v

def resize (toMe : ℕ) (v : Vector T) : Except Fault (Vector T) :=
  let v := if toMe < v.size then popTo toMe v.size v else v
  if v.size < toMe then pushTo toMe (toMe - v.size) (v.reserve toMe) else .ok v

end Vector

inductive Call (T : Type)
  | pushBack (val : Option T)
  | popBack
  | resize (toMe : UInt32)
  | reserve (newCap : UInt32)
  | shrinkToFit
  | clear
  | assign (which : UInt32) (val : T)
  -- `operator[]`, to read or to write
  | get (which : UInt32)
  | set (which : UInt32) (val : T)
  | size

inductive Result (T : Type)
  | done
  | value (val : T)
  | number (n : ℕ)

variable [Inhabited T]

def Vector.call (c : Call T) (v : Vector T) : Except Fault (Vector T × Result T) :=
  match c with
  | .pushBack val => (Vector.pushBack val v).map (·, .done)
  | .popBack => .ok (v.popBack, .done)
  | .resize toMe => (Vector.resize toMe.toNat v).map (·, .done)
  | .reserve newCap => .ok (v.reserve newCap.toNat, .done)
  | .shrinkToFit => .ok (v.shrinkToFit, .done)
  | .clear => .ok (.empty, .done)
  | .assign which val => (v.assign which.toNat val).map (·, .done)
  | .get which => (v.getObj which.toNat).map fun val => (v, .value val)
  | .set which val => (v.write which.toNat val).map (·, .done)
  | .size => .ok (v, .number v.size)

def listCall (c : Call T) (l : List T) : List T × Result T :=
  match c with
  | .pushBack val => (l ++ [val.getD default], .done)
  | .popBack => (l.dropLast, .done)
  | .resize toMe => (l.take toMe.toNat ++ replicate (toMe.toNat - l.length) default, .done)
  | .reserve _ | .shrinkToFit => (l, .done)
  | .clear => ([], .done)
  | .assign which val | .set which val => (l.set which.toNat val, .done)
  | .get which => (l, .value (l.getD which.toNat default))
  | .size => (l, .number l.length)

def Call.Legal (c : Call T) (l : List T) : Prop :=
  match c with
  | .get which | .set which _ => which.toNat < l.length
  | _ => True

def Legal : List (Call T) → List T → Prop
  | [], _ => True
  | c :: calls, l => c.Legal l ∧ Legal calls (listCall c l).1

def Call.HasRoom (c : Call T) (v : Vector T) : Prop :=
  match c with
  | .pushBack _ => v.size = v.capacity → 0 < v.capacity ∧ v.capacity < 2 ^ 31
  | .assign which _ => which.toNat = v.size → v.size < v.capacity
  | _ => True

section Refinement

structure Refines (v : Vector T) (l : List T) : Prop where
  used : v.usedSlots = l.length
  filled : ∀ (i : ℕ) (val : T), l[i]? = some val → v.slots[i]? = some (some val)
  word : v.numSlots < 2 ^ 32

variable {v : Vector T} {l : List T}

namespace Refines

omit [Inhabited T] in
theorem le (h : Refines v l) : l.length ≤ v.numSlots := by
  by_contra hlt
  have hin : v.numSlots < l.length := by omega
  have hslot := h.filled v.numSlots l[v.numSlots] (List.getElem?_eq_getElem hin)
  have := (List.getElem?_eq_some_iff.mp hslot).1
  simp [Array.numSlots] at this

omit [Inhabited T] in
theorem write (h : Refines v l) {which : ℕ} (hlt : which < v.numSlots) (val : T) :
    ∃ v', v.write which val = .ok v' ∧ Refines v' (l.set which val) ∧ v'.numSlots = v.numSlots := by
  refine ⟨_, if_pos hlt, ⟨?_, ?_, ?_⟩, by simp [Array.numSlots]⟩
  · rw [List.length_set]
    exact h.used
  · intro i x hx
    by_cases hi : which = i
    · subst hi
      rw [List.getElem?_set_self' ] at hx
      obtain ⟨_, -, rfl⟩ := Option.map_eq_some_iff.mp hx
      exact List.getElem?_set_self hlt
    · rw [List.getElem?_set_ne hi] at hx ⊢
      exact h.filled i x hx
  · simpa [Array.numSlots] using h.word

theorem pushBack (h : Refines v l) (hroom : l.length < v.numSlots) (val : Option T) :
    ∃ v', Array.pushBack val v = .ok v' ∧ Refines v' (l ++ [val.getD default]) ∧ v'.numSlots = v.numSlots := by
  have hlt : v.usedSlots < v.numSlots := h.used ▸ hroom
  refine ⟨⟨v.slots.set v.usedSlots (some (val.getD default)), v.usedSlots + 1⟩, ?_, ⟨?_, ?_, ?_⟩, ?_⟩
  · rw [Array.pushBack, Array.write, if_pos hlt, ok_bind]
    rfl
  · rw [length_append, length_singleton, h.used]
  · intro i x hx
    by_cases hi : i = l.length
    · subst hi
      rw [List.getElem?_concat_length, Option.some.injEq] at hx
      rw [h.used, List.getElem?_set_self hroom, hx]
    · have hil : i < l.length := by
        have := (List.getElem?_eq_some_iff.mp hx).1
        rw [length_append, length_singleton] at this
        omega
      rw [List.getElem?_append_left hil] at hx
      rw [List.getElem?_set_ne (by rw [h.used]; exact Ne.symm hi)]
      exact h.filled i x hx
  · simpa [Array.numSlots] using h.word
  · simp [Array.numSlots]

omit [Inhabited T] in
theorem resize (h : Refines v l) {howMany : ℕ} (hle : l.length ≤ howMany) (hword : howMany < 2 ^ 32) :
    Refines (Array.resize howMany v) l ∧ (Array.resize howMany v).numSlots = howMany := by
  have hbound : l.length ≤ v.slots.length := h.le
  have hresize := v.resize_of_le (h.used ▸ hle)
  rw [h.used] at hresize
  have hnum : (Array.resize howMany v).numSlots = howMany := by
    rw [hresize]
    simp only [Array.numSlots, length_append, length_take, length_replicate]
    omega
  refine ⟨⟨by rw [hresize], ?_, by rw [hnum]; exact hword⟩, hnum⟩
  intro i x hx
  have hil : i < l.length := (List.getElem?_eq_some_iff.mp hx).1
  rw [hresize]
  dsimp only
  rw [List.getElem?_append_left (by rw [length_take]; omega), List.getElem?_take_of_lt hil]
  exact h.filled i x hx

omit [Inhabited T] in
theorem popBack (h : Refines v l) : Refines v.popBack l.dropLast := by
  unfold Array.popBack
  split_ifs with hzero
  · rw [h.used, List.length_eq_zero_iff] at hzero
    rw [hzero] at h ⊢
    exact h
  · refine ⟨?_, ?_, ?_⟩
    · rw [length_dropLast, ← h.used]
    · intro i x hx
      have hil := (List.getElem?_eq_some_iff.mp hx).1
      rw [length_dropLast] at hil
      rw [List.getElem?_dropLast, if_pos hil] at hx
      rw [List.getElem?_set_ne (by rw [h.used]; omega)]
      exact h.filled i x hx
    · simpa [Array.numSlots] using h.word

omit [Inhabited T] in
theorem popTo (h : Refines v l) {toMe rounds : ℕ} (hle : toMe ≤ l.length) (hrounds : l.length - toMe ≤ rounds) :
    Refines (Vector.popTo toMe rounds v) (l.take toMe) := by
  induction rounds generalizing v l with
  | zero =>
    rw [List.take_of_length_le (by omega)]
    exact h
  | succ rounds ih =>
    have hsize : v.size = l.length := h.used
    rw [Vector.popTo]
    split_ifs with heq
    · rw [List.take_of_length_le (by omega)]
      exact h
    · have hrest := ih h.popBack (by rw [length_dropLast]; omega) (by rw [length_dropLast]; omega)
      rwa [List.dropLast_eq_take, List.take_take, Nat.min_eq_left (by omega)] at hrest

theorem pushTo (h : Refines v l) {toMe rounds : ℕ} (hle : l.length ≤ toMe) (hroom : toMe ≤ v.numSlots)
    (hrounds : rounds = toMe - l.length) :
    ∃ v', Vector.pushTo toMe rounds v = .ok v' ∧ Refines v' (l ++ replicate rounds default) := by
  induction rounds generalizing v l with
  | zero => exact ⟨v, rfl, by simpa using h⟩
  | succ rounds ih =>
    have hsize : v.size = l.length := h.used
    have hnot : v.isFull = false := by
      have hne : v.usedSlots ≠ v.numSlots := by rw [h.used]; omega
      simpa [Array.isFull] using hne
    obtain ⟨v', hv', hpush, hnum⟩ := h.pushBack (by omega) none
    obtain ⟨w, hw, hrest⟩ := ih hpush (by rw [length_append, length_singleton]; omega) (by omega)
      (by rw [length_append, length_singleton]; omega)
    refine ⟨w, ?_, ?_⟩
    · rw [Vector.pushTo, if_neg (by omega), Vector.pushBack, hnot]
      exact bind_eq_ok.mpr ⟨v', hv', hw⟩
    · rw [List.append_assoc] at hrest
      exact hrest

omit [Inhabited T] in
theorem doubleSize (h : Refines v l) (hfull : v.usedSlots = v.numSlots) (hpos : 0 < v.numSlots)
    (hfits : v.numSlots < 2 ^ 31) : Refines v.doubleSize l ∧ l.length < v.doubleSize.numSlots := by
  have hword : v.numSlots * 2 < 2 ^ 32 := by omega
  have hused := h.used
  obtain ⟨hdouble, hnum⟩ := @resize T v l h (v.numSlots * 2) (by omega) hword
  rw [Array.doubleSize, Nat.mod_eq_of_lt hword]
  exact ⟨hdouble, by omega⟩

theorem push (h : Refines v l) {val : Option T} (hroom : (Call.pushBack val).HasRoom v) :
    ∃ v', Vector.pushBack val v = .ok v' ∧ Refines v' (l ++ [val.getD default]) := by
  have hused := h.used
  have hle := h.le
  unfold Vector.pushBack
  split_ifs with hfull
  · have heq : v.usedSlots = v.numSlots := by simpa [Array.isFull] using hfull
    obtain ⟨hpos, hfits⟩ := hroom heq
    obtain ⟨hdouble, hlt⟩ := h.doubleSize heq hpos hfits
    obtain ⟨v', hv', hpush, -⟩ := hdouble.pushBack hlt val
    exact ⟨v', hv', hpush⟩
  · have hne : v.usedSlots ≠ v.numSlots := by simpa [Array.isFull] using hfull
    obtain ⟨v', hv', hpush, -⟩ := h.pushBack (by omega) val
    exact ⟨v', hv', hpush⟩

theorem resizeTo (h : Refines v l) {toMe : ℕ} (hword : toMe < 2 ^ 32) : ∃ v', Vector.resize toMe v = .ok v' ∧
    Refines v' (l.take toMe ++ replicate (toMe - l.length) default) := by
  have hsize : v.size = l.length := h.used
  unfold Vector.resize
  dsimp only
  by_cases hshrink : toMe < v.size
  · have hpop := @popTo T v l h toMe v.size (by omega) (by omega)
    have hlen : (Vector.popTo toMe v.size v).size = toMe := by
      have hused := hpop.used
      rwa [length_take, Nat.min_eq_left (by omega)] at hused
    refine ⟨_, by rw [if_pos hshrink, hlen, if_neg (Nat.lt_irrefl _)], ?_⟩
    have hzero : toMe - l.length = 0 := by omega
    rw [hzero, List.replicate_zero, append_nil]
    exact hpop
  · rw [if_neg hshrink]
    have htake : l.take toMe = l := List.take_of_length_le (by omega)
    rw [htake]
    split_ifs with hgrow
    · have hreserve : Refines (v.reserve toMe) l ∧ toMe ≤ (v.reserve toMe).numSlots := by
        unfold Vector.reserve
        split_ifs with hcap
        · obtain ⟨hr, hnum⟩ := @resize T v l h toMe (by omega) hword
          exact ⟨hr, Nat.le_of_eq hnum.symm⟩
        · exact ⟨h, Nat.not_lt.mp hcap⟩
      rw [hsize]
      exact hreserve.1.pushTo (by omega) hreserve.2 rfl
    · have hzero : toMe - l.length = 0 := by omega
      refine ⟨v, rfl, ?_⟩
      rw [hzero, List.replicate_zero, append_nil]
      exact h

theorem call (h : Refines v l) {c : Call T} (hlegal : c.Legal l) (hroom : c.HasRoom v) :
    ∃ v', v.call c = .ok (v', (listCall c l).2) ∧ Refines v' (listCall c l).1 := by
  have hused := h.used
  have hle := h.le
  cases c with
  | pushBack val =>
    obtain ⟨v', hv', hpush⟩ := h.push hroom
    exact ⟨v', by rw [Vector.call, hv']; rfl, hpush⟩
  | popBack => exact ⟨_, rfl, h.popBack⟩
  | resize toMe =>
    obtain ⟨v', hv', hresize⟩ := h.resizeTo toMe.toNat_lt
    exact ⟨v', by rw [Vector.call, hv']; rfl, hresize⟩
  | reserve newCap =>
    refine ⟨_, rfl, ?_⟩
    unfold Vector.reserve
    split_ifs with hcap
    · have hlt : v.numSlots < newCap.toNat := hcap
      exact (h.resize (by omega) newCap.toNat_lt).1
    · exact h
  | shrinkToFit =>
    refine ⟨_, rfl, ?_⟩
    have hsize : v.size = l.length := hused
    unfold Vector.shrinkToFit
    split_ifs with hcap
    · have hword := h.word
      exact (h.resize (by omega) (by omega)).1
    · exact h
  | clear => exact ⟨_, rfl, ⟨rfl, nofun, by simp [Array.numSlots, Vector.empty]⟩⟩
  | assign which val =>
    unfold Vector.call Array.assign
    dsimp only
    split_ifs with hbehind
    · refine ⟨v, rfl, ?_⟩
      have hset : l.set which.toNat val = l := List.set_eq_of_length_le (by omega)
      simp only [listCall, hset]
      exact h
    · have hlt : which.toNat < v.numSlots := by
        by_cases heq : which.toNat = v.usedSlots
        · have : v.usedSlots < v.numSlots := hroom heq
          omega
        · omega
      obtain ⟨v', hv', hwrite, -⟩ := h.write hlt val
      exact ⟨v', by rw [hv']; rfl, hwrite⟩
  | get which =>
    have hin : which.toNat < l.length := hlegal
    have hval := List.getElem?_eq_getElem hin
    refine ⟨v, ?_, h⟩
    rw [Vector.call, Array.getObj, h.filled _ _ hval]
    simp [Except.map, listCall, List.getD_eq_getElem?_getD, hval]
  | set which val =>
    have hin : which.toNat < l.length := hlegal
    obtain ⟨v', hv', hwrite, -⟩ := @write T v l h which.toNat (by omega) val
    exact ⟨v', by rw [Vector.call, hv']; rfl, hwrite⟩
  | size =>
    refine ⟨v, ?_, h⟩
    have hsize : v.size = l.length := hused
    simp only [Vector.call, listCall, hsize]

omit [Inhabited T] in
theorem size_le (h : Refines v l) : v.size ≤ v.capacity := by
  rw [Vector.size, h.used]
  exact h.le

end Refines

end Refinement

end PlinyCompute.PdbVector
