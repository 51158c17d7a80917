import Mathlib
import PlinyCompute.MetadataFile

namespace PlinyCompute.BufferManager

open Transition

inductive FileValue
  | string (value : Name)
  | unsignedLong (value : UInt64)
  | long (value : Int64)
  | stringList (value : List Name)

def intText (n : ℤ) : Name := if n < 0 then '-' :: Nat.toDigits 10 n.natAbs else Nat.toDigits 10 n.natAbs

/-- As with `stoul`, no number is an exception, and here a number out of range too. -/
def stol (s : Name) : Option ℤ :=
  let number : Option ℤ :=
    match s.dropWhile isspace with
    | '-' :: s => (leadingDigits s).map fun n : ℕ => -(n : ℤ)
    | '+' :: s => (leadingDigits s).map Int.ofNat
    | s => (leadingDigits s).map Int.ofNat
  number.filter fun n => -2 ^ 63 ≤ n ∧ n < 2 ^ 63

namespace FileData

def putStringList (key : Name) (value : List Name) (myData : FileData) : FileData := myData.putString key (joined value)

def putUnsignedLong (key : Name) (value : UInt64) (myData : FileData) : FileData :=
  myData.putString key (Nat.toDigits 10 value.toNat)

def putLong (key : Name) (value : Int64) (myData : FileData) : FileData := myData.putString key (intText value.toInt)

def put (myData : FileData) (call : Name × FileValue) : FileData :=
  match call.2 with
  | .string value => myData.putString call.1 value
  | .unsignedLong value => myData.putUnsignedLong call.1 value
  | .long value => myData.putLong call.1 value
  | .stringList value => myData.putStringList call.1 value

def getLong (key : Name) (myData : FileData) : Option Int64 := ((myData.lookup key).bind stol).map Int64.ofInt

def getLike (key : Name) (myData : FileData) : FileValue → Except Fault (Option FileValue)
  | .string _ => .ok ((myData.getString key).map .string)
  | .unsignedLong _ => .ok (((myData.getUnsignedLong key).filter (· < 2 ^ 64)).map fun n => .unsignedLong (.ofNat n))
  | .long _ => .ok ((myData.getLong key).map .long)
  | .stringList _ =>
    match myData.lookup key with
    | none => .ok none
    | some res => (stringListFrom res (res.length + 1) 0).map fun value => some (.stringList value)

def inOrder (myData : FileData) : FileData := myData.insertionSort fun ent ent' => ent.1 ≤ ent'.1

def reload (text : List Char) (calls : List (Name × FileValue)) : FileData :=
  read (save (calls.foldl put (read text)).inOrder)

def RoundTrips (text : List Char) (calls : List (Name × FileValue)) : Prop :=
  ∀ key value, calls.reverse.lookup key = some value → (reload text calls).getLike key value = .ok (some value)

end FileData

def FileValue.text : FileValue → Name
  | .string value => value
  | .unsignedLong value => Nat.toDigits 10 value.toNat
  | .long value => intText value.toInt
  | .stringList value => FileData.joined value

structure Splits (value : List Name) : Prop where
  parts : ∀ s ∈ value, s ≠ [] ∧ '#' ∉ s.tail
  stops : castInt (FileData.joined value).length ≤ (FileData.joined value).length
  last : value ≠ [] → (FileData.joined value.dropLast).length < castInt (FileData.joined value).length

structure Storable (key : Name) (value : FileValue) : Prop where
  keyClean : '|' ∉ key ∧ '\n' ∉ key
  textClean : '|' ∉ value.text ∧ '\n' ∉ value.text
  fits : lineLength (key, value.text) ≤ castInt (lineLength (key, value.text))
  splits : ∀ l, value = .stringList l → Splits l

variable {c : Char} {s t : Name} {key : Name} {value : FileValue} {myData : FileData} {text : List Char}
  {calls : List (Name × FileValue)}

theorem findFrom_eq_some {pos i : ℕ} (h : findFrom c s pos = some i) :
    ∃ k, i = k + pos ∧ k < (s.drop pos).length ∧ c ∉ (s.drop pos).take k := by
  unfold findFrom at h
  obtain ⟨k, hk, rfl⟩ := Option.map_eq_some_iff.mp h
  obtain ⟨hlt, -, hbefore⟩ := List.findIdx?_eq_some_iff_getElem.mp hk
  refine ⟨k, rfl, hlt, ?_⟩
  intro hmem
  obtain ⟨j, hj, hjc⟩ := List.mem_iff_getElem.mp hmem
  rw [List.length_take] at hj
  rw [List.getElem_take] at hjc
  have hne := hbefore j (by omega)
  simp [hjc] at hne

theorem parts_of_stringListFrom {res : Name} {fuel pos : ℕ} {l : List Name}
    (h : stringListFrom res fuel pos = .ok l) : ∀ s ∈ l, (s ≠ [] ∧ '#' ∉ s.tail) ∧ s ⊆ res := by
  induction fuel generalizing pos l with
  | zero => cases h
  | succ fuel ih =>
    rw [stringListFrom] at h
    split_ifs at h with hpos
    · cases hfind : findFrom '#' res (pos + 1) with
      | none => rw [hfind] at h; cases h
      | some i =>
        rw [hfind] at h
        obtain ⟨rest, hrest, heq⟩ := bind_eq_ok.mp h
        cases heq
        obtain ⟨k, rfl, hk, hnot⟩ := findFrom_eq_some hfind
        rw [List.length_drop] at hk
        have hcut : substr res pos (k + (pos + 1) - pos) = res[pos] :: (res.drop (pos + 1)).take k := by
          have hcount : k + (pos + 1) - pos = k + 1 := by omega
          rw [substr, hcount, List.drop_eq_getElem_cons (by omega), List.take_succ_cons]
        intro s hs
        rcases List.mem_cons.mp hs with rfl | hs
        · refine ⟨?_, fun x hx => List.mem_of_mem_drop (List.mem_of_mem_take hx)⟩
          rw [hcut]
          exact ⟨List.cons_ne_nil _ _, hnot⟩
        · exact ih hrest s hs
    · cases h
      intro s hs
      cases hs

theorem stringListFrom_joined_zero_iff {l : List Name} :
    stringListFrom (FileData.joined l) ((FileData.joined l).length + 1) 0 = .ok l ↔ Splits l := by
  constructor
  · intro h
    have hparts := fun s hs => (parts_of_stringListFrom h s hs).1
    obtain ⟨hstops, hlast⟩ := (stringListFrom_joined_iff [] rfl hparts (by omega)).mp h
    exact ⟨hparts, hstops, hlast⟩
  · rintro ⟨hparts, hstops, hlast⟩
    exact (stringListFrom_joined_iff [] rfl hparts (by omega)).mpr ⟨hstops, hlast⟩

theorem map_eq_ok {ε α β : Type} {x : Except ε α} {f : α → β} {b : β} :
    x.map f = .ok b ↔ ∃ a, x = .ok a ∧ f a = b := by
  cases x with
  | error e => simp [Except.map]
  | ok a => simp [Except.map]

theorem stol_intText {n : ℤ} (hlow : -2 ^ 63 ≤ n) (hhigh : n < 2 ^ 63) : stol (intText n) = some n := by
  have hdigits := leadingDigits_toDigits n.natAbs
  have hrange : (some n).filter (fun n : ℤ => -2 ^ 63 ≤ n ∧ n < 2 ^ 63) = some n := by
    rw [Option.filter_some, if_pos (decide_eq_true ⟨hlow, hhigh⟩)]
  unfold stol intText
  dsimp only
  split_ifs with hneg
  · have habs : -((n.natAbs : ℕ) : ℤ) = n := by omega
    rw [List.dropWhile_cons_of_neg (by decide)]
    change Option.filter _ ((leadingDigits _).map _) = _
    rw [hdigits, Option.map_some, habs, hrange]
  · have habs : Int.ofNat n.natAbs = n := by
      rw [Int.ofNat_eq_natCast]
      omega
    obtain ⟨x, xs, hd, hminus, hplus, hdrop⟩ := dropWhile_toDigits n.natAbs
    rw [hd] at hdigits
    rw [hdrop]
    split
    · next heq => exact absurd (List.cons.inj heq).1 hminus
    · next heq => exact absurd (List.cons.inj heq).1 hplus
    · rw [hdigits, Option.map_some, habs, hrange]

theorem notMem_toDigits {n : ℕ} (hc : c.isDigit = false) : c ∉ Nat.toDigits 10 n := by
  intro hmem
  rw [isDigit_toDigits c hmem] at hc
  cases hc

theorem notMem_intText {n : ℤ} (hc : c.isDigit = false) (hminus : c ≠ '-') : c ∉ intText n := by
  unfold intText
  split_ifs
  · simp [hminus, notMem_toDigits hc]
  · exact notMem_toDigits hc

namespace FileData

theorem put_eq (call : Name × FileValue) : myData.put call = myData.putString call.1 call.2.text := by
  obtain ⟨key, value⟩ := call
  cases value <;> rfl

def Distinct (myData : FileData) : Prop := (myData.map Prod.fst).Nodup

theorem Distinct.lookup_eq_some_iff (h : Distinct myData) : myData.lookup key = some s ↔ (key, s) ∈ myData := by
  induction myData with
  | nil => simp
  | cons ent rest ih =>
    obtain ⟨hnot, hrest⟩ := List.nodup_cons.mp h
    rw [List.lookup_cons]
    by_cases hkey : key = ent.1
    · subst hkey
      have habsent : (ent.1, s) ∉ rest := fun hmem => hnot (List.mem_map.mpr ⟨_, hmem, rfl⟩)
      simp [habsent, Prod.ext_iff, eq_comm]
    · have hbeq : (key == ent.1) = false := beq_eq_false_iff_ne.mpr hkey
      have hne : (key, s) ≠ ent := by
        rintro rfl
        exact hkey rfl
      simp [hbeq, hne, ih hrest]

theorem mem_putString {k v : Name} :
    (k, v) ∈ myData.putString key s ↔ (if k = key then v = s else (k, v) ∈ myData) := by
  unfold putString
  by_cases hkey : k = key <;> simp [hkey]

theorem Distinct.putString (h : Distinct myData) : Distinct (myData.putString key s) := by
  unfold Distinct FileData.putString
  rw [List.map_append, List.nodup_append]
  refine ⟨h.sublist (List.filter_sublist.map _), by simp, ?_⟩
  intro k hk k' hk'
  obtain ⟨ent, hent, rfl⟩ := List.mem_map.mp hk
  have hne : ent.1 ≠ key := by simpa using (List.mem_filter.mp hent).2
  simp only [List.map_cons, List.map_nil, List.mem_singleton] at hk'
  rw [hk']
  exact hne

theorem Distinct.foldl_put (h : Distinct myData) (calls : List (Name × FileValue)) :
    Distinct (calls.foldl put myData) ∧ ∀ k v, (k, v) ∈ calls.foldl put myData ↔
      match calls.reverse.lookup k with
      | some value => v = value.text
      | none => (k, v) ∈ myData := by
  induction calls using List.reverseRecOn with
  | nil => exact ⟨h, fun k v => Iff.rfl⟩
  | append_singleton calls call ih =>
    obtain ⟨hdistinct, hmem⟩ := ih
    rw [List.foldl_append, List.foldl_cons, List.foldl_nil, put_eq]
    refine ⟨hdistinct.putString, ?_⟩
    intro k v
    rw [mem_putString, List.reverse_append, List.reverse_singleton, List.singleton_append, List.lookup_cons, hmem]
    by_cases hkey : k = call.1
    · simp [hkey]
    · have hbeq : (k == call.1) = false := beq_eq_false_iff_ne.mpr hkey
      simp [hkey, hbeq]

def Separate (myData : FileData) : Prop :=
  ∀ ent ∈ myData, ('|' ∉ ent.1 ∧ '\n' ∉ ent.1) ∧ '|' ∉ ent.2 ∧ '\n' ∉ ent.2

theorem notMem_linesFrom {line : Name} (hline : '\n' ∉ line) (text : List Char) :
    ∀ l ∈ linesFrom line text, '\n' ∉ l := by
  induction text generalizing line with
  | nil =>
    intro l hl
    rw [linesFrom] at hl
    split_ifs at hl
    · cases hl
    · rw [List.mem_singleton.mp hl]
      exact hline
  | cons x text ih =>
    intro l hl
    rw [linesFrom] at hl
    split_ifs at hl with hx
    · rcases List.mem_cons.mp hl with rfl | hl
      · exact hline
      · exact ih (by simp) l hl
    · exact ih (by simp [hline, Ne.symm hx]) l hl

theorem substr_subset (s : Name) (pos count : ℕ) : substr s pos count ⊆ s :=
  fun _ hx => List.mem_of_mem_drop (List.mem_of_mem_take hx)

theorem notMem_substr {pos i : ℕ} (h : findFrom c s (pos + 1) = some i) : c ∉ substr s (pos + 1) (i - pos - 1) := by
  obtain ⟨k, rfl, -, hnot⟩ := findFrom_eq_some h
  have hcount : k + (pos + 1) - pos - 1 = k := by omega
  rw [substr, hcount]
  exact hnot

theorem parseLine_separate {line v : Name} (h : parseLine line = some (key, v)) (hline : '\n' ∉ line) :
    ('|' ∉ key ∧ '\n' ∉ key) ∧ '|' ∉ v ∧ '\n' ∉ v := by
  obtain ⟨firstPipe, -, h⟩ := Option.bind_eq_some_iff.mp h
  obtain ⟨secPipe, hsec, h⟩ := Option.bind_eq_some_iff.mp h
  obtain ⟨lastPipe, hlast, h⟩ := Option.bind_eq_some_iff.mp h
  split_ifs at h
  cases h
  exact ⟨⟨notMem_substr hsec, fun hmem => hline (substr_subset _ _ _ hmem)⟩,
    notMem_substr hlast, fun hmem => hline (substr_subset _ _ _ hmem)⟩

theorem read_separate (text : List Char) : Distinct (read text) ∧ Separate (read text) := by
  have hfold : ∀ (lines : List Name) (myData : FileData), (∀ l ∈ lines, '\n' ∉ l) →
      Distinct myData ∧ Separate myData →
      Distinct (lines.foldl addLine myData) ∧ Separate (lines.foldl addLine myData) := by
    intro lines
    induction lines with
    | nil => exact fun _ _ h => h
    | cons line lines ih =>
      intro myData hlines h
      apply ih _ fun l hl => hlines l (List.mem_cons_of_mem _ hl)
      unfold addLine
      cases hparse : parseLine line with
      | none => exact h
      | some ent =>
        obtain ⟨hdistinct, hseparate⟩ := h
        refine ⟨hdistinct.putString, ?_⟩
        rintro ⟨k, v⟩ hmem
        rw [mem_putString] at hmem
        split_ifs at hmem with hkey
        · subst hkey hmem
          exact parseLine_separate hparse (hlines line List.mem_cons_self)
        · exact hseparate _ hmem
  apply hfold _ _ (notMem_linesFrom (by simp) text)
  exact ⟨List.nodup_nil, nofun⟩

theorem reload_eq (h : Separate (calls.foldl put (read text))) :
    reload text calls = (calls.foldl put (read text)).inOrder.filter fun ent =>
      lineLength ent ≤ castInt (lineLength ent) := by
  have hperm : (calls.foldl put (read text)).inOrder.Perm (calls.foldl put (read text)) :=
    List.perm_insertionSort _ _
  have hdistinct := ((read_separate text).1.foldl_put calls).1
  apply read_save_filter
  · exact (hperm.map Prod.fst).nodup_iff.mpr hdistinct
  · exact fun ent hent => ⟨(h ent (hperm.mem_iff.mp hent)).1.1, (h ent (hperm.mem_iff.mp hent)).2.1⟩
  · exact fun ent hent => ⟨(h ent (hperm.mem_iff.mp hent)).1.2, (h ent (hperm.mem_iff.mp hent)).2.2⟩

theorem getLike_text_iff (h : myData.lookup key = some value.text) :
    myData.getLike key value = .ok (some value) ↔ ∀ l, value = .stringList l → Splits l := by
  cases value with
  | string v =>
    change myData.lookup key = some v at h
    simp [getLike, getString, h]
  | unsignedLong v =>
    change myData.lookup key = some (Nat.toDigits 10 v.toNat) at h
    have hlt : v.toNat < 18446744073709551616 := v.toNat_lt
    simp [getLike, getUnsignedLong, h, stoul_toDigits, hlt]
  | long v =>
    change myData.lookup key = some (intText v.toInt) at h
    simp [getLike, getLong, h, stol_intText v.le_toInt v.toInt_lt]
  | stringList v =>
    change myData.lookup key = some (joined v) at h
    rw [getLike, h]
    dsimp only
    rw [map_eq_ok]
    constructor
    · rintro ⟨l, hl, heq⟩ l' heq'
      cases heq
      cases heq'
      exact stringListFrom_joined_zero_iff.mp hl
    · intro hsplits
      exact ⟨v, stringListFrom_joined_zero_iff.mpr (hsplits v rfl), rfl⟩

theorem lookup_of_getLike {l : List Name} (h : myData.getLike key (.stringList l) = .ok (some (.stringList l))) :
    ∃ res, myData.lookup key = some res ∧ ∀ s ∈ l, s ⊆ res := by
  rw [getLike] at h
  cases hres : myData.lookup key with
  | none => rw [hres] at h; cases h
  | some res =>
    rw [hres] at h
    obtain ⟨l', hl', heq⟩ := map_eq_ok.mp h
    cases heq
    exact ⟨res, rfl, fun s hs => (parts_of_stringListFrom hl' s hs).2⟩

theorem separate_of_getLike (hread : Distinct myData ∧ Separate myData) (h : myData.getLike key value = .ok (some value)) :
    (∃ res, (key, res) ∈ myData) ∧ ('|' ∉ key ∧ '\n' ∉ key) ∧ '|' ∉ value.text ∧ '\n' ∉ value.text := by
  obtain ⟨hdistinct, hseparate⟩ := hread
  have hentry : ∀ res, myData.lookup key = some res →
      (∃ res, (key, res) ∈ myData) ∧ ('|' ∉ key ∧ '\n' ∉ key) ∧ '|' ∉ res ∧ '\n' ∉ res := by
    intro res hres
    have hmem := hdistinct.lookup_eq_some_iff.mp hres
    exact ⟨⟨res, hmem⟩, hseparate _ hmem⟩
  cases value with
  | string v =>
    simp only [getLike, getString, Except.ok.injEq, Option.map_eq_some_iff, FileValue.string.injEq,
      exists_eq_right] at h
    exact hentry v h
  | unsignedLong v =>
    cases hres : myData.lookup key with
    | none => simp [getLike, getUnsignedLong, hres] at h
    | some res =>
      obtain ⟨hfound, hkey, -⟩ := hentry res hres
      exact ⟨hfound, hkey, notMem_toDigits (by decide), notMem_toDigits (by decide)⟩
  | long v =>
    cases hres : myData.lookup key with
    | none => simp [getLike, getLong, hres] at h
    | some res =>
      obtain ⟨hfound, hkey, -⟩ := hentry res hres
      exact ⟨hfound, hkey, notMem_intText (by decide) (by decide), notMem_intText (by decide) (by decide)⟩
  | stringList l =>
    obtain ⟨res, hres, hsub⟩ := lookup_of_getLike h
    obtain ⟨hfound, hkey, hpipe, hline⟩ := hentry res hres
    have hjoined : ∀ x, x ∈ joined l → x ≠ '#' → x ∈ res := by
      intro x hx hne
      obtain ⟨s, hs, hxs⟩ := List.mem_flatMap.mp hx
      rcases List.mem_append.mp hxs with hxs | hxs
      · exact hsub s hs hxs
      · exact absurd (List.mem_singleton.mp hxs) hne
    exact ⟨hfound, hkey, fun hmem => hpipe (hjoined _ hmem (by decide)), fun hmem => hline (hjoined _ hmem (by decide))⟩

theorem roundTrips_iff_storable (text : List Char) (calls : List (Name × FileValue)) :
    RoundTrips text calls ↔ ∀ key value, calls.reverse.lookup key = some value → Storable key value := by
  obtain ⟨hread, hold⟩ := read_separate text
  obtain ⟨hdistinct, hput⟩ := hread.foldl_put calls
  have hseparate_of : (∀ key value, calls.reverse.lookup key = some value →
      ('|' ∉ key ∧ '\n' ∉ key) ∧ '|' ∉ value.text ∧ '\n' ∉ value.text) →
      Separate (calls.foldl put (read text)) := by
    rintro h ⟨k, v⟩ hmem
    rw [hput] at hmem
    cases hlast : calls.reverse.lookup k with
    | none =>
      rw [hlast] at hmem
      exact hold _ hmem
    | some value =>
      rw [hlast] at hmem
      obtain rfl : v = value.text := hmem
      exact h k value hlast
  have hmem_reload : ∀ (key : Name) (value : FileValue), Separate (calls.foldl put (read text)) →
      calls.reverse.lookup key = some value → ∀ v, (key, v) ∈ reload text calls ↔
        v = value.text ∧ lineLength (key, v) ≤ castInt (lineLength (key, v)) := by
    intro key value hseparate hlast v
    have hentry := hput key v
    rw [hlast] at hentry
    rw [reload_eq hseparate, List.mem_filter, inOrder, List.mem_insertionSort, hentry, decide_eq_true_eq]
  have hdistinct' : Distinct (reload text calls) := (read_separate _).1
  constructor
  · intro h
    have hclean := fun key value hlast => separate_of_getLike (read_separate _) (h key value hlast)
    have hseparate := hseparate_of fun key value hlast => (hclean key value hlast).2
    intro key value hlast
    obtain ⟨⟨res, hres⟩, hkey, htext⟩ := hclean key value hlast
    obtain ⟨rfl, hfits⟩ := (hmem_reload key value hseparate hlast res).mp hres
    exact ⟨hkey, htext, hfits, (getLike_text_iff (hdistinct'.lookup_eq_some_iff.mpr hres)).mp (h key value hlast)⟩
  · intro h key value hlast
    have hseparate := hseparate_of fun key value hlast =>
      ⟨(h key value hlast).keyClean, (h key value hlast).textClean⟩
    obtain ⟨hkey, htext, hfits, hsplits⟩ := h key value hlast
    have hmem := (hmem_reload key value hseparate hlast value.text).mpr ⟨rfl, hfits⟩
    exact (getLike_text_iff (hdistinct'.lookup_eq_some_iff.mpr hmem)).mpr hsplits

theorem not_roundTrips_emptyName : ¬RoundTrips [] [("dbNames".toList, .stringList [[]])] := by
  intro h
  have hget := h "dbNames".toList (.stringList [[]]) rfl
  cases hget

end FileData

end PlinyCompute.BufferManager
