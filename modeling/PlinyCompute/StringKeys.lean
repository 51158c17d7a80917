import Mathlib.Data.List.TakeWhile
import PlinyCompute.PdbString

namespace PlinyCompute.PdbString

open Transition CountedHeap
open List (length_append replicate length_singleton length_set)

variable {s : Chars} {x y : Str} {h h' : Heap Chars} {rest : List ℕ}

def Storable (s : Chars) : Prop := 0 ∉ s ∧ s.length + 1 < 2 ^ 31

def ref (x : Str) : Option ℕ :=
  match x.storage with
  | .bytes _ => none
  | .target o => some o

def refs (x : Str) : List ℕ := (ref x).toList

def Formed (x : Str) : Prop :=
  (0 ≤ x.info ∧ ∃ b, x.storage = .bytes b ∧ b.length = 8) ∨ (x.info < 0 ∧ ∃ o, x.storage = .target o)

inductive Stores (s : Chars) (h : Heap Chars) : Str → Prop
  | short (tail : Chars) (hlength : s.length + 1 + tail.length = 8) :
    Stores s h ⟨.bytes (s ++ 0 :: tail), s.length + 1⟩
  | long (o : ℕ) (c : Cell Chars) (hc : h.get o = some c) (hvalue : c.value = s ++ [0]) (hlong : 8 < s.length + 1) :
    Stores s h ⟨.target o, -(s.length + 1)⟩

theorem Stores.formed (hs : Stores s h x) : Formed x := by
  cases hs with
  | short tail hlength =>
    left
    refine ⟨by dsimp only; omega, _, rfl, ?_⟩
    rw [length_append, List.length_cons]
    omega
  | long o c hc hvalue hlong =>
    right
    exact ⟨by dsimp only; omega, o, rfl⟩

theorem Stores.keeps (hs : Stores s h x) (k : Keeps h h' (refs x)) : Stores s h' x := by
  cases hs with
  | short tail hlength => exact .short tail hlength
  | long o c hc hvalue hlong =>
    obtain ⟨c', hc', hv⟩ := k o List.mem_cons_self c hc
    exact .long o c' hc' (hv.trans hvalue) hlong

theorem toInt_of_lt {n : ℕ} (hn : n < 2 ^ 31) : toInt n = n := by
  unfold toInt
  rw [Int.bmod_eq_of_le] <;> omega

theorem toInt_lt (n : ℕ) : toInt n < 2 ^ 31 := by
  have := @Int.bmod_lt n (2 ^ 32) (Nat.two_pow_pos 32)
  unfold toInt
  omega

section Reading

theorem Stores.region (hs : Stores s h x) : ∃ tail, region x h = .ok (s ++ 0 :: tail) := by
  cases hs with
  | short tail hlength =>
    refine ⟨tail, ?_⟩
    unfold PdbString.region
    exact if_pos (by dsimp only; omega)
  | long o c hc hvalue hlong =>
    refine ⟨[], ?_⟩
    unfold PdbString.region
    dsimp only
    rw [if_neg (by omega), hc, ← hvalue]

theorem takeWhile_zero (hzero : 0 ∉ s) (tail : Chars) : (s ++ 0 :: tail).takeWhile (· ≠ 0) = s := by
  induction s with
  | nil => rfl
  | cons c s ih =>
    rw [List.mem_cons, not_or] at hzero
    rw [List.cons_append, List.takeWhile_cons, if_pos (decide_eq_true (Ne.symm hzero.1)), ih hzero.2]

theorem Stores.cStr (hs : Stores s h x) (hzero : 0 ∉ s) : cStr x h = .ok s := by
  obtain ⟨tail, htail⟩ := hs.region
  unfold PdbString.cStr
  rw [htail, ok_bind, if_pos (List.mem_append_right _ List.mem_cons_self), takeWhile_zero hzero]

theorem Stores.size (hs : Stores s h x) : size x = s.length + 1 := by
  unfold PdbString.size
  cases hs with
  | short tail hlength => exact if_pos (by dsimp only; omega)
  | long o c hc hvalue hlong =>
    rw [if_neg (by dsimp only; omega)]
    dsimp only
    omega

theorem Stores.hash (hs : Stores s h x) (shl32 : UInt32 → UInt32) : hash shl32 x h = .ok (hashMe shl32 s) := by
  obtain ⟨tail, htail⟩ := hs.region
  have hlength : s.length ≤ (s ++ 0 :: tail).length := by
    rw [length_append]
    omega
  unfold PdbString.hash
  rw [htail, ok_bind, hs.size]
  dsimp only
  rw [if_pos (by omega), add_sub_cancel_right, Int.toNat_natCast, List.take_left]

end Reading

section Operations

theorem letGo_formed (hx : Formed x) (hsound : Sound h (refs x ++ rest)) :
    ∃ h', letGo x h = .ok h' ∧ Sound h' rest ∧ Keeps h h' rest := by
  obtain ⟨hinfo, b, hb, -⟩ | ⟨hinfo, o, ho⟩ := hx
  · rw [refs, ref, hb] at hsound
    exact ⟨h, if_pos hinfo, hsound, .refl h rest⟩
  · rw [refs, ref, ho] at hsound
    obtain ⟨h', hh', hsound', hkeeps⟩ := hsound.release
    refine ⟨h', ?_, hsound', hkeeps⟩
    unfold letGo
    rw [if_neg (by omega), ho]
    dsimp only
    rw [hh']

inductive Room (len : ℕ) (h : Heap Chars) (rest : List ℕ) : Str → Prop
  | short (b : Chars) (hlength : b.length = 8) (hlen : len ≤ 8) : Room len h rest ⟨.bytes b, len⟩
  | long (o : ℕ) (c : Cell Chars) (hc : h.get o = some c) (hvalue : c.value.length = len) (hlong : 8 < len)
    (hfresh : o ∉ rest) : Room len h rest ⟨.target o, -len⟩

theorem makeRoom_ok {len : ℕ} (hx : Formed x) (hsound : Sound h (refs x ++ rest)) :
    ∃ h' y, makeRoom len x h = .ok (h', y) ∧ Sound h' (refs y ++ rest) ∧ Keeps h h' rest ∧ Room len h' rest y := by
  unfold makeRoom
  by_cases hfit : len ≤ 8
  · have hcan : canFit len = true := decide_eq_true ⟨by omega, by omega⟩
    obtain ⟨h', hh', hsound', hkeeps⟩ := letGo_formed hx hsound
    have hbytes : ∃ b, (if 0 ≤ x.info then x.storage else null) = .bytes b ∧ b.length = 8 := by
      obtain ⟨hinfo, hb⟩ | ⟨hinfo, -⟩ := hx
      · rwa [if_pos hinfo]
      · rw [if_neg (by omega)]
        exact ⟨_, rfl, rfl⟩
    obtain ⟨b, hb, hlength⟩ := hbytes
    rw [hcan, if_pos rfl, hh', ok_bind, hb]
    exact ⟨h', _, rfl, hsound', hkeeps, .short b hlength hfit⟩
  · have hcan : canFit len = false := decide_eq_false fun h => hfit (by omega)
    obtain ⟨halloc, hkeepsAlloc⟩ := hsound.alloc (replicate len (0 : UInt8))
    have hperm : (h.cells.length :: (refs x ++ rest)).Perm (refs x ++ h.cells.length :: rest) :=
      List.perm_middle.symm
    obtain ⟨h', hh', hsound', hkeeps⟩ := letGo_formed hx (halloc.perm hperm)
    obtain ⟨c, hc, hvalue⟩ := hkeeps h.cells.length List.mem_cons_self _ (Heap.get_alloc_self h _)
    have hfresh : h.cells.length ∉ rest := by
      intro hin
      obtain ⟨d, hd⟩ := hsound.aimed _ (List.mem_append_right _ hin)
      exact absurd (Heap.lt_of_get hd) (Nat.lt_irrefl _)
    rw [hcan, if_neg Bool.false_ne_true, if_neg (by omega), Int.toNat_natCast, hh', ok_bind]
    refine ⟨h', _, rfl, hsound', ?_, .long _ c hc ?_ (by omega) hfresh⟩
    · apply (hkeepsAlloc.mono (List.subset_append_right _ _)).trans
      exact hkeeps.mono (List.subset_cons_self _ _)
    · rw [hvalue, List.length_replicate]

theorem Room.moveIn (hy : Room (s.length + 1) h rest y) (hsound : Sound h (refs y ++ rest)) :
    ∃ h' z, moveIn (s ++ [0]) y h = .ok (h', z) ∧ Sound h' (refs z ++ rest) ∧ Keeps h h' rest ∧ Stores s h' z := by
  unfold PdbString.moveIn region
  cases hy with
  | short b hlength hlen =>
    dsimp only
    rw [if_pos (by omega), ok_bind, if_neg (by rw [length_append, length_singleton]; omega)]
    refine ⟨h, _, rfl, hsound, .refl h rest, ?_⟩
    rw [List.append_assoc, List.singleton_append]
    apply Stores.short
    rw [List.length_drop, length_append, length_singleton]
    omega
  | long o c hc hvalue hlong hfresh =>
    obtain ⟨h', hh', hsound', hkeeps, c', hc', hvalue'⟩ := Sound.write hsound hfresh (s ++ [0])
    have hnone : c.value.drop (s ++ [0]).length = [] := by
      apply List.drop_of_length_le
      rw [length_append, length_singleton, hvalue]
    dsimp only
    rw [if_neg (by omega), hc]
    dsimp only
    rw [ok_bind, if_neg (by rw [length_append, length_singleton]; omega), hnone, List.append_nil, hh']
    exact ⟨h', _, rfl, hsound', hkeeps, .long o c' hc' hvalue' hlong⟩

theorem ofChars_ok (hx : Formed x) (hsound : Sound h (refs x ++ rest)) (hs : Storable s) :
    ∃ h' y, ofChars s x h = .ok (h', y) ∧ Sound h' (refs y ++ rest) ∧ Keeps h h' rest ∧ Stores s h' y := by
  obtain ⟨h₁, y, hy, hsound₁, hkeeps₁, hroom⟩ := @makeRoom_ok x h rest (s.length + 1) hx hsound
  obtain ⟨h', z, hz, hsound', hkeeps, hstores⟩ := hroom.moveIn hsound₁
  have htake : (s ++ [0]).take (s.length + 1) = s ++ [0] := List.take_of_length_le (by simp)
  refine ⟨h', z, ?_, hsound', hkeeps₁.trans hkeeps, hstores⟩
  unfold ofChars
  rw [toInt_of_lt hs.2]
  dsimp only
  rw [hy, ok_bind]
  dsimp only
  rw [Int.toNat_natCast, htake]
  exact hz

theorem ofSized_ok (hx : Formed x) (hsound : Sound h (refs x ++ rest)) (hs : Storable s) :
    ∃ h' y, ofSized s x h = .ok (h', y) ∧ Sound h' (refs y ++ rest) ∧ Keeps h h' rest ∧ Stores s h' y := by
  have hsame : ofSized s x h = ofChars s x h := by
    unfold ofSized ofChars
    rw [toInt_of_lt hs.2]
    have hpos : (s.length : ℤ) + 1 ≠ 0 := by omega
    simp [List.take_of_length_le, hpos]
  rw [hsame]
  exact ofChars_ok hx hsound hs

theorem ofNothing_ok (hsound : Sound h rest) :
    ∃ y, ofNothing h = .ok (h, y) ∧ Sound h (refs y ++ rest) ∧ Stores [] h y := by
  refine ⟨_, rfl, hsound, ?_⟩
  exact Stores.short _ rfl

theorem ofString_ok (deep : Bool) (hx : Formed x) (hsound : Sound h (refs x ++ rest)) (hy : Stores s h y)
    (hrefs : refs y ⊆ rest) : ∃ h' z, ofString deep y x h = .ok (h', z) ∧ Sound h' (refs z ++ rest) ∧ Keeps h h' rest ∧
      Stores s h' z := by
  unfold ofString
  cases hy with
  | short tail hlength =>
    obtain ⟨h', hh', hsound', hkeeps⟩ := letGo_formed hx hsound
    rw [if_pos (by dsimp only; omega), hh', ok_bind]
    exact ⟨h', _, rfl, hsound', hkeeps, .short tail hlength⟩
  | long o c hc hvalue hlong =>
    have htarget : ∃ h₁ p, target deep ⟨.target o, -(s.length + 1)⟩ h = .ok (h₁, p) ∧
        Sound h₁ (refs x ++ p :: rest) ∧ Keeps h h₁ rest ∧ ∃ d, h₁.get p = some d ∧ d.value = s ++ [0] := by
      unfold target
      dsimp only
      rw [hc]
      dsimp only
      cases deep with
      | true =>
        have htake : c.value.take (-(-((s.length : ℤ) + 1))).toNat = s ++ [0] := by
          rw [hvalue, neg_neg, show ((s.length : ℤ) + 1).toNat = s.length + 1 by omega]
          exact List.take_of_length_le (by simp)
        obtain ⟨halloc, hkeeps⟩ := hsound.alloc (s ++ [0])
        rw [if_pos rfl, htake]
        exact ⟨_, _, rfl, halloc.perm List.perm_middle.symm, hkeeps.mono (List.subset_append_right _ _), _,
          Heap.get_alloc_self h _, rfl⟩
      | false =>
        obtain ⟨h₁, hh₁, hretain, hkeeps, d, hd, hdvalue⟩ := hsound.retain hc
        rw [if_neg Bool.false_ne_true, hh₁]
        exact ⟨h₁, o, rfl, hretain.perm List.perm_middle.symm, hkeeps.mono (List.subset_append_right _ _), d, hd,
          hdvalue.trans hvalue⟩
    obtain ⟨h₁, p, hp, hsound₁, hkeeps₁, d, hd, hdvalue⟩ := htarget
    obtain ⟨h', hh', hsound', hkeeps⟩ := letGo_formed hx hsound₁
    obtain ⟨d', hd', hdvalue'⟩ := hkeeps p List.mem_cons_self d hd
    rw [if_neg (by dsimp only; omega), hp, ok_bind]
    dsimp only
    rw [hh', ok_bind]
    exact ⟨h', _, rfl, hsound', hkeeps₁.trans (hkeeps.mono (List.subset_cons_self _ _)),
      .long p d' hd' (hdvalue'.trans hdvalue) hlong⟩

theorem destroy_ok (hx : Stores s h x) (hsound : Sound h (refs x ++ rest)) :
    ∃ h', destroy x h = .ok h' ∧ Sound h' rest ∧ Keeps h h' rest := by
  unfold destroy
  split_ifs with hinfo
  · exact letGo_formed hx.formed hsound
  · cases hx with
    | short tail hlength => exact ⟨h, rfl, hsound, .refl h rest⟩
    | long o c hc hvalue hlong =>
      dsimp only at hinfo
      omega

theorem storable_of_cStr (hback : cStr x h = .ok s) (hbound : ∀ r, region x h = .ok r → r.length < 2 ^ 31) :
    Storable s := by
  obtain ⟨r, hr, hback⟩ := bind_eq_ok.mp hback
  have hlt := hbound r hr
  split_ifs at hback with hzero
  cases hback
  constructor
  · intro hin
    have := List.mem_takeWhile_imp hin
    simp at this
  · have hne : r.takeWhile (· ≠ 0) ≠ r := by
      intro heq
      have := List.takeWhile_eq_self_iff.mp heq 0 hzero
      simp at this
    have hfront := List.takeWhile_prefix (l := r) (· ≠ 0)
    have hle := hfront.length_le
    have hlength : (r.takeWhile (· ≠ 0)).length ≠ r.length := fun heq => hne (hfront.eq_of_length heq)
    omega

theorem Room.region_length {len : ℕ} {r : Chars} (hy : Room len h rest y) (hr : region y h = .ok r) :
    r.length = 8 ∨ r.length = len := by
  unfold region at hr
  cases hy with
  | short b hlength hlen =>
    dsimp only at hr
    rw [if_pos (by omega)] at hr
    cases hr
    exact .inl hlength
  | long o c hc hvalue hlong hfresh =>
    dsimp only at hr
    rw [if_neg (by omega), hc] at hr
    cases hr
    exact .inr hvalue

theorem moveIn_region {chars r : Chars} (hmove : moveIn chars y h = .ok (h', x)) (hr : region x h' = .ok r) :
    ∃ old, region y h = .ok old ∧ r.length = old.length := by
  obtain ⟨old, hold, hmove⟩ := bind_eq_ok.mp hmove
  refine ⟨old, hold, ?_⟩
  split_ifs at hmove with hroom
  have hnew : (chars ++ old.drop chars.length).length = old.length := by
    rw [length_append, List.length_drop]
    omega
  unfold region at hold hr
  obtain ⟨storage, info⟩ := y
  cases storage with
  | bytes b =>
    dsimp only at hold hmove
    cases hmove
    dsimp only at hr
    split_ifs at hold hr with hinfo
    cases hr
    exact hnew
  | target o =>
    dsimp only at hold hmove
    split_ifs at hold with hinfo
    cases hc : h.get o with
    | none =>
      rw [hc] at hold
      cases hold
    | some c =>
      have hwrite : h.write o (chars ++ old.drop chars.length) =
          some (h.set o (some { c with value := chars ++ old.drop chars.length })) := by
        rw [Heap.write, hc]
        rfl
      rw [hwrite] at hmove
      cases hmove
      dsimp only at hr
      rw [if_neg hinfo, Heap.get_set_self hc] at hr
      cases hr
      exact hnew

theorem makeRoom_region {n : ℕ} {r : Chars} (hx : Formed x) (hsound : Sound h (refs x ++ rest))
    (hmake : makeRoom (toInt n) x h = .ok (h', y)) (hr : region y h' = .ok r) : r.length < 2 ^ 31 := by
  by_cases hneg : toInt n < 0
  · have hcan : canFit (toInt n) = false := decide_eq_false fun h => by omega
    unfold makeRoom at hmake
    rw [hcan, if_neg Bool.false_ne_true, if_pos hneg] at hmake
    cases hmake
  · have hlt := toInt_lt n
    obtain ⟨len, hlen⟩ := Int.eq_ofNat_of_zero_le (Int.not_lt.mp hneg)
    rw [hlen] at hmake hlt
    obtain ⟨h₁, y₁, hmake₁, -, -, hroom⟩ := @makeRoom_ok x h rest len hx hsound
    rw [hmake₁, Except.ok.injEq, Prod.mk.injEq] at hmake
    obtain ⟨rfl, rfl⟩ := hmake
    have := hroom.region_length hr
    omega

theorem ofChars_back {t : Chars} (hx : Formed x) (hsound : Sound h (refs x ++ rest)) (hof : ofChars s x h = .ok (h', y))
    (hback : cStr y h' = .ok t) : Storable t := by
  obtain ⟨⟨h₁, y₁⟩, hmake, hmove⟩ := bind_eq_ok.mp hof
  apply storable_of_cStr hback
  intro r hr
  obtain ⟨old, hold, hlength⟩ := moveIn_region hmove hr
  rw [hlength]
  exact makeRoom_region hx hsound hmake hold

theorem ofSized_back {t : Chars} (hx : Formed x) (hsound : Sound h (refs x ++ rest)) (hof : ofSized s x h = .ok (h', y))
    (hback : cStr y h' = .ok t) : Storable t := by
  obtain ⟨⟨h₁, y₁⟩, hmake, hmove⟩ := bind_eq_ok.mp hof
  apply storable_of_cStr hback
  intro r hr
  dsimp only at hmove
  split_ifs at hmove with hzero
  obtain ⟨old, hold, hlength⟩ := moveIn_region hmove hr
  rw [hlength]
  exact makeRoom_region hx hsound hmake hold

end Operations

section Worlds

def given (c : Call) (m : List (Option Chars)) : List (Option Chars) :=
  match c with
  | .constructEmpty => m ++ [some []]
  | .construct _ s | .constructSized _ s => m ++ [some s]
  | .copy _ source _ => m ++ [(m[source]?).join]
  | .assign dest s => m.set dest (some s)
  | .assignString dest source _ => m.set dest (m[source]?).join
  | .destroy dest => m.set dest none

def Live (m : List (Option Chars)) (i : ℕ) : Prop := ∃ s, m[i]? = some (some s)

/-- A `String` ends the program when it is assigned to itself. -/
def Call.Legal (c : Call) (m : List (Option Chars)) : Prop :=
  match c with
  | .constructEmpty => True
  | .construct raw _ | .constructSized raw _ => raw.length = 8
  | .copy raw source _ => raw.length = 8 ∧ Live m source
  | .assign dest _ | .destroy dest => Live m dest
  | .assignString dest source _ => Live m dest ∧ Live m source ∧ dest ≠ source

def Call.Storable (c : Call) : Prop :=
  match c with
  | .construct _ s | .constructSized _ s | .assign _ s => PdbString.Storable s
  | _ => True

def Legal : List Call → List (Option Chars) → Prop
  | [], _ => True
  | c :: calls, m => c.Legal m ∧ Legal calls (given c m)

structure Lawful (shl32 : UInt32 → UInt32) (w : World) (m : List (Option Chars)) : Prop where
  back : ∀ (i : ℕ) (s : Chars), m[i]? = some (some s) → ∃ x, w.read i = .ok x ∧ cStr x w.heap = .ok s
  equal_iff : ∀ (i j : ℕ) (s t : Chars), m[i]? = some (some s) → m[j]? = some (some t) →
    ∃ x y, w.read i = .ok x ∧ w.read j = .ok y ∧ equal x y w.heap = .ok (decide (s = t))
  hash_eq : ∀ i j x y, w.read i = .ok x → w.read j = .ok y → equal x y w.heap = .ok true →
    ∃ code, hash shl32 x w.heap = .ok code ∧ hash shl32 y w.heap = .ok code

def LawfulRun (shl32 : UInt32 → UInt32) : List Call → World → List (Option Chars) → Prop
  | [], w, m => Lawful shl32 w m
  | c :: calls, w, m => Lawful shl32 w m ∧ ∃ w', w.perform c = .ok w' ∧ LawfulRun shl32 calls w' (given c m)

def allRefs (strings : List (Option Str)) : List ℕ := strings.filterMap fun x => x.bind ref

structure Inv (w : World) (m : List (Option Chars)) : Prop where
  sound : Sound w.heap (allRefs w.strings)
  length_eq : w.strings.length = m.length
  stores : ∀ (i : ℕ) (s : Chars), m[i]? = some (some s) →
    ∃ x, w.strings[i]? = some (some x) ∧ Stores s w.heap x ∧ Storable s
  live : ∀ (i : ℕ) (x : Str), w.strings[i]? = some (some x) → Live m i

variable {w w' : World} {m : List (Option Chars)} {i j : ℕ}

theorem read_eq_ok : w.read i = .ok x ↔ w.strings[i]? = some (some x) := by
  rw [← Option.join_eq_some_iff]
  unfold World.read
  cases (w.strings[i]?).join <;> simp

namespace Inv

theorem lawful (inv : Inv w m) (shl32 : UInt32 → UInt32) : Lawful shl32 w m := by
  have hread : ∀ (i : ℕ) (s : Chars), m[i]? = some (some s) →
      ∃ x, w.read i = .ok x ∧ Stores s w.heap x ∧ cStr x w.heap = .ok s := by
    intro i s hs
    obtain ⟨x, hx, hstores, hstorable⟩ := inv.stores i s hs
    exact ⟨x, read_eq_ok.mpr hx, hstores, hstores.cStr hstorable.1⟩
  constructor
  · intro i s hs
    obtain ⟨x, hx, -, hback⟩ := hread i s hs
    exact ⟨x, hx, hback⟩
  · intro i j s t hs ht
    obtain ⟨x, hx, -, hbackX⟩ := hread i s hs
    obtain ⟨y, hy, -, hbackY⟩ := hread j t ht
    refine ⟨x, y, hx, hy, ?_⟩
    rw [equal, hbackX, ok_bind, hbackY, ok_bind]
    rfl
  · intro i j x y hx hy hequal
    obtain ⟨s, hs⟩ := inv.live i x (read_eq_ok.mp hx)
    obtain ⟨t, ht⟩ := inv.live j y (read_eq_ok.mp hy)
    obtain ⟨x', hx', hstoresX, hbackX⟩ := hread i s hs
    obtain ⟨y', hy', hstoresY, hbackY⟩ := hread j t ht
    rw [hx, Except.ok.injEq] at hx'
    rw [hy, Except.ok.injEq] at hy'
    subst hx' hy'
    rw [equal, hbackX, ok_bind, hbackY, ok_bind] at hequal
    have hst : s = t := of_decide_eq_true (Except.ok.inj hequal)
    subst hst
    exact ⟨_, hstoresX.hash shl32, hstoresY.hash shl32⟩

theorem sound_at (inv : Inv w m) (hx : w.strings[i]? = some (some x)) :
    Sound w.heap (refs x ++ allRefs (w.strings.set i none)) :=
  inv.sound.perm (filterMap_set_perm (f := fun x : Option Str => x.bind ref) hx none).symm

theorem refs_subset (hx : w.strings[i]? = some (some x)) : refs x ⊆ allRefs w.strings := by
  intro o ho
  apply List.mem_filterMap.mpr
  exact ⟨some x, List.mem_of_getElem? hx, Option.mem_toList.mp ho⟩

theorem set (inv : Inv w m) (hx : w.strings[i]? = some (some x))
    (hsound : Sound h' (refs y ++ allRefs (w.strings.set i none)))
    (hkeeps : Keeps w.heap h' (allRefs (w.strings.set i none))) (hstores : Stores s h' y) (hs : Storable s) :
    Inv ⟨h', w.strings.set i (some y)⟩ (m.set i (some s)) := by
  have hi := (List.getElem?_eq_some_iff.mp hx).1
  have hnone : (w.strings.set i none)[i]? = some none := List.getElem?_set_self hi
  have hperm := filterMap_set_perm (f := fun x : Option Str => x.bind ref) hnone (some y)
  rw [List.set_set] at hperm
  refine ⟨hsound.perm hperm.symm, ?_, ?_, ?_⟩
  · rw [length_set, length_set, inv.length_eq]
  · intro j t ht
    by_cases hij : i = j
    · subst hij
      rw [List.getElem?_set_self (inv.length_eq ▸ hi), Option.some.injEq, Option.some.injEq] at ht
      subst ht
      exact ⟨y, List.getElem?_set_self hi, hstores, hs⟩
    · rw [List.getElem?_set_ne hij] at ht
      obtain ⟨z, hz, hstoresZ, hstorable⟩ := inv.stores j t ht
      refine ⟨z, by rw [List.getElem?_set_ne hij]; exact hz, hstoresZ.keeps (hkeeps.mono ?_), hstorable⟩
      apply refs_subset (w := ⟨w.heap, w.strings.set i none⟩) (i := j)
      rw [List.getElem?_set_ne hij]
      exact hz
  · intro j z hz
    by_cases hij : i = j
    · subst hij
      exact ⟨s, List.getElem?_set_self (inv.length_eq ▸ hi)⟩
    · rw [List.getElem?_set_ne hij] at hz
      obtain ⟨t, ht⟩ := inv.live j z hz
      exact ⟨t, by rw [List.getElem?_set_ne hij]; exact ht⟩

theorem push (inv : Inv w m) (hsound : Sound h' (refs y ++ allRefs w.strings))
    (hkeeps : Keeps w.heap h' (allRefs w.strings)) (hstores : Stores s h' y) (hs : Storable s) :
    Inv ⟨h', w.strings ++ [some y]⟩ (m ++ [some s]) := by
  have hall : allRefs (w.strings ++ [some y]) = allRefs w.strings ++ refs y := by
    rw [allRefs, List.filterMap_append]
    rfl
  refine ⟨?_, ?_, ?_, ?_⟩
  · rw [hall]
    exact hsound.perm List.perm_append_comm
  · rw [length_append, length_append, inv.length_eq]
    rfl
  · intro j t ht
    by_cases hj : j < m.length
    · rw [List.getElem?_append_left hj] at ht
      obtain ⟨z, hz, hstoresZ, hstorable⟩ := inv.stores j t ht
      refine ⟨z, ?_, hstoresZ.keeps (hkeeps.mono (refs_subset hz)), hstorable⟩
      rw [List.getElem?_append_left (inv.length_eq ▸ hj)]
      exact hz
    · have hjm : j = m.length := by
        have := (List.getElem?_eq_some_iff.mp ht).1
        rw [length_append, length_singleton] at this
        omega
      subst hjm
      rw [List.getElem?_concat_length, Option.some.injEq, Option.some.injEq] at ht
      subst ht
      rw [← inv.length_eq]
      exact ⟨y, List.getElem?_concat_length, hstores, hs⟩
  · intro j z hz
    by_cases hj : j < m.length
    · rw [List.getElem?_append_left (inv.length_eq ▸ hj)] at hz
      obtain ⟨t, ht⟩ := inv.live j z hz
      exact ⟨t, by rw [List.getElem?_append_left hj]; exact ht⟩
    · have hjm : j = m.length := by
        have := (List.getElem?_eq_some_iff.mp hz).1
        rw [length_append, length_singleton, inv.length_eq] at this
        omega
      exact ⟨s, by rw [hjm, List.getElem?_concat_length]⟩

theorem unset (inv : Inv w m) (hx : w.strings[i]? = some (some x))
    (hsound : Sound h' (allRefs (w.strings.set i none)))
    (hkeeps : Keeps w.heap h' (allRefs (w.strings.set i none))) :
    Inv ⟨h', w.strings.set i none⟩ (m.set i none) := by
  have hi := (List.getElem?_eq_some_iff.mp hx).1
  refine ⟨hsound, ?_, ?_, ?_⟩
  · rw [length_set, length_set, inv.length_eq]
  · intro j t ht
    have hij : i ≠ j := by
      rintro rfl
      rw [List.getElem?_set_self (inv.length_eq ▸ hi)] at ht
      cases ht
    rw [List.getElem?_set_ne hij] at ht
    obtain ⟨z, hz, hstoresZ, hstorable⟩ := inv.stores j t ht
    have hz' : (w.strings.set i none)[j]? = some (some z) := by rw [List.getElem?_set_ne hij]; exact hz
    exact ⟨z, hz', hstoresZ.keeps (hkeeps.mono (refs_subset (w := ⟨w.heap, w.strings.set i none⟩) hz')), hstorable⟩
  · intro j z hz
    have hij : i ≠ j := by
      rintro rfl
      rw [List.getElem?_set_self hi] at hz
      cases hz
    rw [List.getElem?_set_ne hij] at hz
    obtain ⟨t, ht⟩ := inv.live j z hz
    exact ⟨t, by rw [List.getElem?_set_ne hij]; exact ht⟩

end Inv

theorem formed_raw {raw : Chars} (hraw : raw.length = 8) : Formed ⟨.bytes raw, 0⟩ := .inl ⟨le_refl _, raw, rfl, hraw⟩

namespace Inv

theorem read_live (inv : Inv w m) (hi : Live m i) : ∃ s x, m[i]? = some (some s) ∧ w.strings[i]? = some (some x) ∧
    w.read i = .ok x ∧ Stores s w.heap x ∧ Storable s := by
  obtain ⟨s, hs⟩ := hi
  obtain ⟨x, hx, hstores, hstorable⟩ := inv.stores i s hs
  exact ⟨s, x, hs, hx, read_eq_ok.mpr hx, hstores, hstorable⟩

theorem perform (inv : Inv w m) {c : Call} (hlegal : c.Legal m) (hstorable : c.Storable) :
    ∃ w', w.perform c = .ok w' ∧ Inv w' (given c m) := by
  unfold World.perform World.push World.update
  cases c with
  | constructEmpty =>
    obtain ⟨y, hy, hsound, hstores⟩ := ofNothing_ok inv.sound
    refine ⟨_, bind_eq_ok.mpr ⟨_, hy, rfl⟩, inv.push hsound (.refl _ _) hstores ?_⟩
    exact ⟨List.not_mem_nil, by simp⟩
  | construct raw s =>
    obtain ⟨h', y, hy, hsound, hkeeps, hstores⟩ := ofChars_ok (formed_raw hlegal) inv.sound hstorable
    exact ⟨_, bind_eq_ok.mpr ⟨_, hy, rfl⟩, inv.push hsound hkeeps hstores hstorable⟩
  | constructSized raw s =>
    obtain ⟨h', y, hy, hsound, hkeeps, hstores⟩ := ofSized_ok (formed_raw hlegal) inv.sound hstorable
    exact ⟨_, bind_eq_ok.mpr ⟨_, hy, rfl⟩, inv.push hsound hkeeps hstores hstorable⟩
  | copy raw source deep =>
    obtain ⟨hraw, hsource⟩ := hlegal
    obtain ⟨s, x, hs, hx, hread, hstoresX, hst⟩ := inv.read_live hsource
    obtain ⟨h', y, hy, hsound, hkeeps, hstores⟩ :=
      ofString_ok deep (formed_raw hraw) inv.sound hstoresX (refs_subset hx)
    refine ⟨_, bind_eq_ok.mpr ⟨x, hread, bind_eq_ok.mpr ⟨_, hy, rfl⟩⟩, ?_⟩
    rw [given, hs]
    exact inv.push hsound hkeeps hstores hst
  | assign dest s =>
    obtain ⟨_, x, _, hx, hread, hstoresX, _⟩ := inv.read_live hlegal
    obtain ⟨h', y, hy, hsound, hkeeps, hstores⟩ := ofChars_ok hstoresX.formed (inv.sound_at hx) hstorable
    exact ⟨_, bind_eq_ok.mpr ⟨x, hread, bind_eq_ok.mpr ⟨_, hy, rfl⟩⟩, inv.set hx hsound hkeeps hstores hstorable⟩
  | assignString dest source deep =>
    obtain ⟨hdest, hsource, hne⟩ := hlegal
    obtain ⟨_, x, _, hx, hread, hstoresX, _⟩ := inv.read_live hdest
    obtain ⟨s, z, hs, hz, hreadZ, hstoresZ, hst⟩ := inv.read_live hsource
    have hsub : refs z ⊆ allRefs (w.strings.set dest none) := by
      apply refs_subset (w := ⟨w.heap, w.strings.set dest none⟩) (i := source)
      rw [List.getElem?_set_ne hne]
      exact hz
    obtain ⟨h', y, hy, hsound, hkeeps, hstores⟩ :=
      ofString_ok deep hstoresX.formed (inv.sound_at hx) hstoresZ hsub
    refine ⟨_, bind_eq_ok.mpr ⟨z, hreadZ, bind_eq_ok.mpr ⟨x, hread, bind_eq_ok.mpr ⟨_, hy, rfl⟩⟩⟩, ?_⟩
    rw [given, hs]
    exact inv.set hx hsound hkeeps hstores hst
  | destroy dest =>
    obtain ⟨_, x, _, hx, hread, hstoresX, _⟩ := inv.read_live hlegal
    obtain ⟨h', hh', hsound, hkeeps⟩ := destroy_ok hstoresX (inv.sound_at hx)
    exact ⟨_, bind_eq_ok.mpr ⟨x, hread, bind_eq_ok.mpr ⟨h', hh', rfl⟩⟩, inv.unset hx hsound hkeeps⟩

theorem storable_of_lawful (inv : Inv w m) {c : Call} {shl32 : UInt32 → UInt32} (hlegal : c.Legal m)
    (hc : w.perform c = .ok w') (hlawful : Lawful shl32 w' (given c m)) : c.Storable := by
  have hlast (s : Chars) (h' : Heap Chars) (y : Str) (hw : w' = ⟨h', w.strings ++ [some y]⟩)
      (hm : given c m = m ++ [some s]) : cStr y h' = .ok s := by
    obtain ⟨x, hx, hback⟩ := hlawful.back m.length s (by rw [hm, List.getElem?_concat_length])
    rw [hw, read_eq_ok, ← inv.length_eq, List.getElem?_concat_length, Option.some.injEq, Option.some.injEq] at hx
    rwa [hw, ← hx] at hback
  cases c with
  | construct raw s =>
    obtain ⟨⟨h', y⟩, hy, hw⟩ := bind_eq_ok.mp hc
    cases hw
    exact ofChars_back (formed_raw hlegal) inv.sound hy (hlast s h' y rfl rfl)
  | constructSized raw s =>
    obtain ⟨⟨h', y⟩, hy, hw⟩ := bind_eq_ok.mp hc
    cases hw
    exact ofSized_back (formed_raw hlegal) inv.sound hy (hlast s h' y rfl rfl)
  | assign dest s =>
    obtain ⟨t, x, ht, hx, hread, hstoresX, _⟩ := inv.read_live hlegal
    obtain ⟨x', hx', hc⟩ := bind_eq_ok.mp hc
    rw [hread, Except.ok.injEq] at hx'
    subst hx'
    obtain ⟨⟨h', y⟩, hy, hw⟩ := bind_eq_ok.mp hc
    cases hw
    obtain ⟨z, hz, hback⟩ := hlawful.back dest s (List.getElem?_set_self (List.getElem?_eq_some_iff.mp ht).1)
    rw [read_eq_ok, List.getElem?_set_self (List.getElem?_eq_some_iff.mp hx).1, Option.some.injEq,
      Option.some.injEq] at hz
    subst hz
    exact ofChars_back hstoresX.formed (inv.sound_at hx) hy hback
  | constructEmpty => trivial
  | copy raw source deep => trivial
  | assignString dest source deep => trivial
  | destroy dest => trivial

theorem lawfulRun_iff (inv : Inv w m) (shl32 : UInt32 → UInt32) {calls : List Call} (hlegal : PdbString.Legal calls m) :
    LawfulRun shl32 calls w m ↔ ∀ c ∈ calls, c.Storable := by
  induction calls generalizing w m with
  | nil => exact ⟨fun _ => nofun, fun _ => inv.lawful shl32⟩
  | cons c calls ih =>
    obtain ⟨hc, hrest⟩ := hlegal
    constructor
    · rintro ⟨-, w', hw', hrun⟩
      have hlawful : Lawful shl32 w' (given c m) := by
        cases calls with
        | nil => exact hrun
        | cons c' calls => exact hrun.1
      have hst := inv.storable_of_lawful hc hw' hlawful
      obtain ⟨w'', hw'', inv'⟩ := inv.perform hc hst
      rw [hw', Except.ok.injEq] at hw''
      subst hw''
      exact List.forall_mem_cons.mpr ⟨hst, (ih inv' hrest).mp hrun⟩
    · intro hall
      obtain ⟨hst, htail⟩ := List.forall_mem_cons.mp hall
      obtain ⟨w', hw', inv'⟩ := inv.perform hc hst
      exact ⟨inv.lawful shl32, w', hw', (ih inv' hrest).mpr htail⟩

end Inv

end Worlds

theorem lawful_iff (shl32 : UInt32 → UInt32) (calls : List Call) (hlegal : Legal calls []) :
    LawfulRun shl32 calls ⟨⟨[]⟩, []⟩ [] ↔ ∀ c ∈ calls, c.Storable := by
  have inv : Inv ⟨⟨[]⟩, []⟩ [] := ⟨.nil, rfl, nofun, nofun⟩
  exact inv.lawfulRun_iff shl32 hlegal

theorem lawful_shortAndLong : LawfulRun id [.construct (replicate 8 0) [1, 2, 3],
    .constructSized (replicate 8 0) [1, 2, 3, 4, 5, 6, 7, 8], .assignString 0 1 false, .assign 1 [9]]
    ⟨⟨[]⟩, []⟩ [] := by
  have hlegal : Legal [.construct (replicate 8 0) [1, 2, 3],
      .constructSized (replicate 8 0) [1, 2, 3, 4, 5, 6, 7, 8], .assignString 0 1 false, .assign 1 [9]] [] :=
    ⟨rfl, rfl, ⟨⟨_, rfl⟩, ⟨_, rfl⟩, Nat.zero_ne_one⟩, ⟨_, rfl⟩, trivial⟩
  apply (lawful_iff id _ hlegal).mpr
  simp [Call.Storable, PdbString.Storable]

theorem not_lawful_zero : ¬LawfulRun id [.constructSized (replicate 8 0) [97, 0, 98]] ⟨⟨[]⟩, []⟩ [] := by
  rintro ⟨-, w, hw, hlawful⟩
  have hmade : World.perform (.constructSized (replicate 8 0) [97, 0, 98]) ⟨⟨[]⟩, []⟩ =
      .ok ⟨⟨[]⟩, [some ⟨.bytes [97, 0, 98, 0, 0, 0, 0, 0], 4⟩]⟩ := rfl
  rw [hmade] at hw
  cases hw
  obtain ⟨x, hx, hback⟩ := hlawful.back 0 [97, 0, 98] rfl
  cases hx
  cases hback

end PlinyCompute.PdbString
