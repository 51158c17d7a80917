import PlinyCompute.JoinMultimap
import PlinyCompute.MapUndo

namespace PlinyCompute.PdbJoinMap

open Probing PdbMap Transition

variable {V : Type}

namespace JoinMap

def size (m : JoinMap V) : ℕ := m.myArray.usedSlots

inductive Op (V : Type)
  | push (room : JoinRoom) (me : ℕ) (v : V)
  -- a `push` that is taken back at once
  | pushUnset (room : JoinRoom) (me : ℕ) (v : V)

variable [Inhabited V]

def change (op : Op V) (m : JoinMap V) : Except Thrown (JoinMap V) :=
  match op with
  | .push room me v =>
    match m.push room me with
    | (m, .ok place) => .ok (m.store place v)
    | (m, .error .notEnoughSpace) => .ok m
    | (_, .error .exit) => .error .exit
  | .pushUnset room me v =>
    match m.push room me with
    | (m, .ok place) => .ok ((m.store place v).setUnused me)
    | (m, .error .notEnoughSpace) => .ok m
    | (_, .error .exit) => .error .exit

def Reached (m : JoinMap V) : Prop :=
  Reachable change (fun _ _ => True) (fun m => ∃ initSize, JoinMap.ofSize initSize = .ok m) m

end JoinMap

namespace JoinPairArray

structure SameGroups (a b : JoinPairArray V) : Prop where
  valid : b.Valid
  values : ∀ hash, b.values hash = a.values hash

theorem Valid.sameGroups {a : JoinPairArray V} (h : a.Valid) : SameGroups a a := ⟨h, fun _ => rfl⟩

structure Undoes (a : JoinPairArray V) (me : ℕ) (b : JoinPairArray V) : Prop extends SameGroups a b where
  used : b.usedSlots = a.usedSlots + if a.count me = 0 then 1 else 0

variable [Inhabited V]

theorem Valid.undo_append {a : JoinPairArray V} (h : a.Valid) {slot me i : ℕ} {e : JoinMapRecordClass V}
    (hs : a.data[slot]? = some (some e)) (he : e.hash = normalise me) (hi : e.next = some i) (v : V) :
    (({ a with overflows := a.overflows.modify i (· ++ [default]) } : JoinPairArray V).store
      (.overflow i (a.overflow (some i)).length) v).setUnused me = a := by
  have hlt : i < a.overflows.length := h.next_lt e (List.mem_of_getElem? hs) i hi
  let f : List V → List V := fun l => (l ++ [default]).set (a.overflow (some i)).length v
  have hstore : ({ a with overflows := a.overflows.modify i (· ++ [default]) } : JoinPairArray V).store
      (.overflow i (a.overflow (some i)).length) v = { a with overflows := a.overflows.modify i f } := by
    simp only [store, List.modify_modify_eq]
    rfl
  have hfind : ({ a with overflows := a.overflows.modify i f } : JoinPairArray V).find me = some slot :=
    h.find_present hs he
  have hlen : 1 ≤ (({ a with overflows := a.overflows.modify i f } : JoinPairArray V).overflow (some i)).length := by
    simp [overflow, f, List.getD_eq_getElem?_getD, List.getElem?_eq_getElem hlt]
  have hback : (a.overflows.modify i f).modify i List.dropLast = a.overflows := by
    have hvec : a.overflow (some i) = a.overflows[i] := by
      simp [overflow, List.getD_eq_getElem?_getD, List.getElem?_eq_getElem hlt]
    rw [List.modify_modify_eq, List.modify_eq_set_getElem?, List.getElem?_eq_getElem hlt]
    simp [f, hvec]
  rw [hstore]
  simp only [setUnused, hfind, hs, Option.join_some, hi, if_pos hlen, hback]

theorem Valid.push_undo {a : JoinPairArray V} (h : a.Valid) (room : JoinRoom) (me : ℕ)
    (hroom : a.usedSlots < a.maxSlots) :
    (∃ a' place, a.push room me = (a', .ok place) ∧ a'.store place default = a' ∧
      ∀ v, (a'.store place v).Valid ∧ Undoes a me ((a'.store place v).setUnused me)) ∨
    ∃ a', a.push room me = (a', .error .notEnoughSpace) ∧ SameGroups a a' := by
  have happend : ∀ {b : JoinPairArray V} {slot i : ℕ} {e : JoinMapRecordClass V}, b.Valid →
      b.data[slot]? = some (some e) → e.hash = normalise me → e.next = some i → SameGroups a b →
      b.usedSlots = a.usedSlots → a.count me ≠ 0 →
      (∃ a' place, b.append room i = (a', .ok place) ∧ a'.store place default = a' ∧
        ∀ v, (a'.store place v).Valid ∧ Undoes a me ((a'.store place v).setUnused me)) ∨
      ∃ a', b.append room i = (a', .error .notEnoughSpace) ∧ SameGroups a a' := by
    intro b slot i e hb hs he hi hsame hused hcount
    have hlt : i < b.overflows.length := hb.next_lt e (List.mem_of_getElem? hs) i hi
    by_cases hr : room = .record
    · exact .inr ⟨b, by rw [append, if_pos hr], hsame⟩
    · refine .inl ⟨_, _, by rw [append, if_neg hr], ?_, ?_⟩
      · have hvec : b.overflow (some i) = b.overflows[i] := by
          simp [overflow, List.getD_eq_getElem?_getD, List.getElem?_eq_getElem hlt]
        simp only [store, List.modify_modify_eq]
        rw [List.modify_eq_set_getElem?, List.modify_eq_set_getElem?, List.getElem?_eq_getElem hlt]
        simp [hvec]
      · intro v
        refine ⟨(hb.append_groups hs hi v).1, ?_⟩
        rw [hb.undo_append hs he hi v]
        exact ⟨hsame, by rw [hused, if_neg hcount, Nat.add_zero]⟩
  obtain ⟨slot, e, hs, he⟩ | habs := @present_or_absent V a me
  · have hfind := h.find_present hs he
    have hcount : a.count me ≠ 0 := fun h0 => h.count_eq_zero.mp h0 e (List.mem_of_getElem? hs) he
    cases hn : e.next with
    | some i =>
      have hpush : a.push room me = a.append room i := by simp [push, hfind, hs, hn]
      rw [hpush]
      exact happend h hs he hn h.sameGroups rfl hcount
    | none =>
      obtain ⟨hb, -, hvalues⟩ := h.add_overflow hs hn
      by_cases hr : room = .list
      · exact .inr ⟨a, by simp [push, hfind, hs, hn, hr], h.sameGroups⟩
      · simp only [push, hfind, hs, Option.join_some, hn, if_neg hr]
        have hself := List.getElem?_set_self (l := a.data)
          (a := some { e with next := some a.overflows.length }) (List.getElem?_eq_some_iff.mp hs).1
        exact happend hb hself he rfl ⟨hb, hvalues⟩ rfl hcount
  · obtain ⟨slot, hempty, hfind, htable⟩ := h.push_absent habs hroom
    have hin : slot < a.data.length := (List.getElem?_eq_some_iff.mp hempty).1
    by_cases hr : room = .pair
    · exact .inr ⟨a, by simp [push, hfind, hempty, hr], h.sameGroups⟩
    · let a' : JoinPairArray V := { a with
        data := a.data.set slot (some ⟨normalise me, none, default⟩)
        usedSlots := a.usedSlots + 1 }
      have hstore (v : V) : a'.store (.slot slot) v = { a with
          data := a.data.set slot (some ⟨normalise me, none, v⟩)
          usedSlots := a.usedSlots + 1 } := by
        have hd := store_slot hin (normalise me) none default v
        simp only [store] at hd ⊢
        simp only [a', hd]
      obtain ⟨a'', place, hp, hpushed⟩ := h.push_fresh hr habs hroom
      have hpush : a.push room me = (a', .ok (.slot slot)) := by simp [push, hfind, hempty, hr, a']
      rw [hpush] at hp
      cases hp
      refine .inl ⟨a', .slot slot, hpush, hstore default, fun v => ⟨hpushed.valid v, ?_⟩⟩
      have hself : (a'.store (.slot slot) v).data[slot]? = some (some ⟨normalise me, none, v⟩) := by
        rw [hstore]
        exact List.getElem?_set_self hin
      have hfind' := (hpushed.valid v).find_present hself rfl
      have hback : (a'.store (.slot slot) v).data.set slot none = a.data := by
        obtain ⟨_, hnone⟩ := List.getElem?_eq_some_iff.mp hempty
        rw [hstore, List.set_set, ← hnone, List.set_getElem_self]
      have hunset : (a'.store (.slot slot) v).setUnused me = { a with usedSlots := a.usedSlots + 1 } := by
        simp only [setUnused, hfind', hself, Option.join_some, hback]
        rw [hstore]
      rw [hunset]
      refine ⟨⟨⟨⟨h.slots, h.placed, h.hashed, Nat.le_succ_of_le h.used, hroom⟩, h.next_lt, h.next_inj⟩, fun _ => rfl⟩, ?_⟩
      rw [if_pos (h.count_eq_zero.mpr habs)]

theorem Valid.doubleArray_used {a temp : JoinPairArray V} (h : a.Valid) (he : a.doubleArray = .ok temp) :
    temp.usedSlots = a.data.reduceOption.length := by
  obtain ⟨newOne, hm, -, -, -, hu⟩ := h.rehash.moveAll_ok
  rw [doubleArray, hm] at he
  cases he
  rw [hu]
  exact Nat.zero_add _

end JoinPairArray

namespace JoinMap

theorem Valid.iteration_eq {m m' : JoinMap V} (h : m.Valid) (h' : m'.Valid) (hc : contents m' = contents m) :
    m'.iteration = m.iteration := by
  have hnodup : ∀ {m : JoinMap V}, m.Valid → m.iteration.Nodup := fun h =>
    List.Nodup.of_map Prod.fst (h.iteration_ascending.imp Nat.ne_of_lt)
  have hperm : m'.iteration.Perm m.iteration := by
    rw [List.perm_ext_iff_of_nodup (hnodup h') (hnodup h)]
    intro g
    rw [h'.mem_iteration, h.mem_iteration, hc]
  have hsorted : ∀ {m : JoinMap V}, m.Valid → m.iteration.Pairwise fun g g' => g.1 < g'.1 :=
    fun h => List.pairwise_map.mp h.iteration_ascending
  apply hperm.eq_of_pairwise _ (hsorted h') (hsorted h)
  intro g g' _ _ hlt hgt
  omega

structure TakenBack (m : JoinMap V) (me : ℕ) (m' : JoinMap V) : Prop where
  valid : m'.Valid
  contents : contents m' = contents m
  size : m'.size = (if m.myArray.isOverFull then m.iteration.length else m.size) + if m.count me = 0 then 1 else 0

variable [Inhabited V]

theorem Valid.push_undo {m : JoinMap V} (h : m.Valid) (room : JoinRoom) (me : ℕ) :
    (∃ m' place, m.push room me = (m', .ok place) ∧ m'.store place default = m' ∧
      ∀ v, (m'.store place v).Valid ∧ TakenBack m me ((m'.store place v).setUnused me)) ∨
    ∃ m', m.push room me = (m', .error .notEnoughSpace) ∧ m'.Valid := by
  -- The array that takes the record is the old one or the doubled one.
  have harray {a : JoinPairArray V} (ha : a.Valid) (hroom : a.usedSlots < a.maxSlots)
      (hvalues : ∀ hash, a.values hash = PdbJoinMap.contents m hash)
      (hused : a.usedSlots = if m.myArray.isOverFull then m.iteration.length else m.size)
      (hcount : a.count me = 0 ↔ m.count me = 0)
      (hpush : m.push room me = (⟨(a.push room me).1⟩, (a.push room me).2)) :
      (∃ m' place, m.push room me = (m', .ok place) ∧ m'.store place default = m' ∧
        ∀ v, (m'.store place v).Valid ∧ TakenBack m me ((m'.store place v).setUnused me)) ∨
      ∃ m', m.push room me = (m', .error .notEnoughSpace) ∧ m'.Valid := by
    obtain ⟨a', place, hp, hdefault, hback⟩ | ⟨a', hp, hsame⟩ := ha.push_undo room me hroom
    · rw [hp] at hpush
      refine .inl ⟨⟨a'⟩, place, hpush, congrArg JoinMap.mk hdefault, fun v => ⟨(hback v).1, ?_⟩⟩
      obtain ⟨⟨hvalid, hsame⟩, hu⟩ := (hback v).2
      refine ⟨hvalid, funext fun hash => (hsame hash).trans (hvalues hash), ?_⟩
      have hsize : ((⟨a'⟩ : JoinMap V).store place v |>.setUnused me).size =
          a.usedSlots + if a.count me = 0 then 1 else 0 := hu
      rw [hsize, hused, if_congr hcount rfl rfl]
    · rw [hp] at hpush
      exact .inr ⟨⟨a'⟩, hpush, hsame.valid⟩
  by_cases hfull : m.myArray.isOverFull = true
  · by_cases hr : room = .array
    · exact .inr ⟨m, by simp [push, hfull, hr], h⟩
    · obtain ⟨temp, hd, hv, -, hroom, hperm, hvalues⟩ := JoinPairArray.Valid.doubleArray_ok h
      apply harray hv hroom hvalues
      · rw [if_pos hfull, JoinPairArray.Valid.doubleArray_used h hd, iteration, m.myArray.groups_perm.length_eq,
          List.length_map]
      · rw [hv.count_eq_zero, JoinMap.count, JoinPairArray.Valid.count_eq_zero h]
        simp only [← List.reduceOption_mem_iff, hperm.mem_iff]
      · simp [push, hfull, hr, hd]
  · have hroom : m.myArray.usedSlots < m.myArray.maxSlots := by
      simpa [JoinPairArray.isOverFull] using hfull
    exact harray h hroom (fun _ => rfl) (by rw [if_neg hfull]; rfl) Iff.rfl (by simp [push, hfull])

theorem valid_of_reached {m : JoinMap V} (h : m.Reached) : m.Valid := by
  apply Reachable.invariant h
  · rintro m ⟨initSize, he⟩
    rw [JoinMap.ofSize] at he
    split_ifs at he
    cases he
    exact JoinPairArray.ofSize_valid (Nat.le_max_right _ _)
  · intro op m m' hm _ he
    cases op with
    | push room me v =>
      unfold change at he
      dsimp only at he
      obtain ⟨m₁, place, hp, -, hback⟩ | ⟨m₁, hp, hvalid⟩ := hm.push_undo room me
      · rw [hp] at he
        cases he
        exact (hback v).1
      · rw [hp] at he
        cases he
        exact hvalid
    | pushUnset room me v =>
      unfold change at he
      dsimp only at he
      obtain ⟨m₁, place, hp, -, hback⟩ | ⟨m₁, hp, hvalid⟩ := hm.push_undo room me
      · rw [hp] at he
        cases he
        exact (hback v).2.valid
      · rw [hp] at he
        cases he
        exact hvalid

end JoinMap

section Undo

variable {K W : Type} [DecidableEq K] [Inhabited V] [Inhabited W]

theorem setUnused_undoes_iff (hash : K → ℕ) {m m' : Map K V} {k : K} {slot : ℕ} (hm : m.Reached hash)
    (hk : m.count hash k = 0) (hi : m.index hash .enough k = (m', .ok slot)) {j j' : JoinMap W} {me : ℕ} {place : Place}
    (hj : j.Reached) (hp : j.push .enough me = (j', .ok place)) :
    (¬Undone hash m (m'.setUnused hash k) ∧
      (m.Valid hash → (∀ k', (m'.setUnused hash k).lookup hash k' = m.lookup hash k') ∧
        (m'.setUnused hash k).iteration = m.iteration ∧
        (m'.setUnused hash k).size = (if m.myArray.isOverFull then m.pairs.length else m.size) + 1)) ∧
    (∀ me', (j'.setUnused me).lookup me' = j.lookup me') ∧ (j'.setUnused me).iteration = j.iteration ∧
      ((j'.setUnused me).size = j.size ↔
        (if j.myArray.isOverFull then j.iteration.length else j.size) + (if j.count me = 0 then 1 else 0) = j.size) := by
  refine ⟨⟨Map.not_undone (Map.loose_of_reached hm) hk hi, fun hv => hv.setUnused_index hk hi⟩, ?_⟩
  have hvalid := JoinMap.valid_of_reached hj
  obtain ⟨j₁, place₁, hp₁, hdefault, hback⟩ | ⟨j₁, hp₁, -⟩ := hvalid.push_undo .enough me
  · rw [hp] at hp₁
    cases hp₁
    obtain ⟨-, hafter, hcontents, hsize⟩ := hback default
    rw [hdefault] at hafter hcontents hsize
    refine ⟨?_, hvalid.iteration_eq hafter hcontents, by rw [hsize]⟩
    intro me'
    rw [hafter.lookup, hvalid.lookup, hcontents]
  · rw [hp] at hp₁
    cases hp₁

theorem setUnused_undoes_first : ¬Undone id (Map.empty : Map ℕ ℕ) ⟨⟨[none, none], 1⟩⟩ ∧
    ((⟨⟨[none, none], [], 1⟩⟩ : JoinMap ℕ).size = (JoinMap.empty : JoinMap ℕ).size ↔ 0 + 1 = 0) := by
  have h := @setUnused_undoes_iff ℕ ℕ ℕ _ _ _ id .empty ⟨⟨[some ⟨1, 1, 0⟩, none], 1⟩⟩ 1 0 (.start ⟨2, rfl⟩) rfl rfl .empty
    ⟨⟨[some ⟨1, none, 0⟩, none], [], 1⟩⟩ 1 (.slot 0) (.start ⟨2, rfl⟩) (by decide +kernel)
  exact ⟨h.1.1, h.2.2.2⟩

theorem not_undone_first : ∃ (m' : Map ℕ ℕ) (slot : ℕ), (Map.empty : Map ℕ ℕ).Reached id ∧
    (Map.empty : Map ℕ ℕ).count id 1 = 0 ∧ (Map.empty : Map ℕ ℕ).index id .enough 1 = (m', .ok slot) ∧
    (m'.setUnused id 1).size = 1 ∧ ¬Undone id (Map.empty : Map ℕ ℕ) (m'.setUnused id 1) := by
  refine ⟨_, _, .start ⟨2, rfl⟩, rfl, rfl, rfl, ?_⟩
  intro h
  have hsize := h.same.size
  revert hsize
  decide

end Undo

end PlinyCompute.PdbJoinMap
