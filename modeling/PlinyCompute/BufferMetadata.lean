import PlinyCompute.BufferFlush

namespace PlinyCompute.BufferManager

open Function Transition
open MetaKey (pagesOf)

structure PDBSet.Plain (set : PDBSet) : Prop where
  setName_ne : set.setName ≠ []
  dbName_ne : set.dbName ≠ []
  setName_free : ∀ c ∈ ['#', '|', '.', '\n'], c ∉ set.setName
  dbName_free : ∀ c ∈ ['#', '|', '.', '\n'], c ∉ set.dbName

variable {k value : Name} {files : List (Name × List Name)} {entries : List (Name × Name)}

theorem putAll_eq {calls : List (Name × Name)} (h : (calls.map Prod.fst).Nodup) : FileData.putAll calls = calls := by
  have hfold : ∀ (rest : List (Name × Name)) (pre : FileData), ((pre ++ rest).map Prod.fst).Nodup →
      rest.foldl (fun myData call => myData.putString call.1 call.2) pre = pre ++ rest := by
    intro rest
    induction rest with
    | nil => simp
    | cons call rest ih =>
      intro pre hn
      have hnot : call.1 ∉ pre.map Prod.fst := by
        rw [List.map_append, List.nodup_append] at hn
        exact fun hm => hn.2.2 call.1 hm call.1 (by simp) rfl
      rw [List.foldl_cons, FileData.putString_new hnot, ih _ (by simpa using hn)]
      simp
  exact hfold calls [] h

theorem lookup_addToFile (key value : Name) (files : List (Name × List Name)) (k : Name) :
    (addToFile key value files).lookup k =
      if k = key then some ((files.lookup k).getD [] ++ [value]) else files.lookup k := by
  induction files with
  | nil =>
    by_cases hk : k = key
    · simp [addToFile, hk]
    · have : (k == key) = false := by simpa using hk
      simp [addToFile, List.lookup_cons, this, hk]
  | cons file files ih =>
    obtain ⟨name, values⟩ := file
    rw [addToFile]
    dsimp only
    by_cases hf : name = key
    · rw [if_pos hf, List.lookup_cons, List.lookup_cons]
      subst hf
      by_cases hk : k = name
      · simp [hk]
      · have : (k == name) = false := by simpa using hk
        simp [this, hk]
    · rw [if_neg hf, List.lookup_cons, List.lookup_cons, ih]
      by_cases hk : k = name
      · subst hk
        simp [hf]
      · have : (k == name) = false := by simpa using hk
        simp [this]

theorem map_fst_addToFile (key value : Name) (files : List (Name × List Name)) :
    (addToFile key value files).map Prod.fst =
      if key ∈ files.map Prod.fst then files.map Prod.fst else files.map Prod.fst ++ [key] := by
  induction files with
  | nil => rfl
  | cons file files ih =>
    rw [addToFile]
    by_cases hf : file.1 = key
    · rw [if_pos hf, if_pos (by simp [hf])]
      rfl
    · rw [if_neg hf, List.map_cons, ih, List.map_cons]
      by_cases hm : key ∈ files.map Prod.fst
      · rw [if_pos hm, if_pos (List.mem_cons_of_mem _ hm)]
      · rw [if_neg hm, if_neg (by simp only [List.mem_cons, not_or]; exact ⟨Ne.symm hf, hm⟩)]
        rfl

def groups (entries : List (Name × Name)) : List (Name × List Name) :=
  entries.foldl (fun files e => addToFile e.1 e.2 files) []

theorem groups_append (entries : List (Name × Name)) (e : Name × Name) :
    groups (entries ++ [e]) = addToFile e.1 e.2 (groups entries) := by
  rw [groups, List.foldl_append]
  rfl

theorem lookup_groups (entries : List (Name × Name)) (k : Name) : (groups entries).lookup k =
    if k ∈ entries.map Prod.fst then some ((entries.filter (·.1 = k)).map Prod.snd) else none := by
  induction entries using List.reverseRecOn with
  | nil => rfl
  | append_singleton entries e ih =>
    rw [groups_append, lookup_addToFile, ih]
    by_cases hk : k = e.1
    · have hin : k ∈ (entries ++ [e]).map Prod.fst := by
        rw [hk]
        exact List.mem_map_of_mem (by simp)
      rw [if_pos hk, if_pos hin]
      subst hk
      by_cases hm : e.1 ∈ entries.map Prod.fst
      · rw [if_pos hm]
        simp
      · have hnil : entries.filter (·.1 = e.1) = [] := by
          rw [List.filter_eq_nil_iff]
          intro x hx hxe
          exact hm (List.mem_map.mpr ⟨x, hx, by simpa using hxe⟩)
        rw [if_neg hm]
        simp [hnil]
    · rw [if_neg hk]
      have hm : k ∈ (entries ++ [e]).map Prod.fst ↔ k ∈ entries.map Prod.fst := by simp [hk]
      have hne : ¬ e.1 = k := Ne.symm hk
      simp only [hm, List.filter_append, List.filter_cons, hne, decide_false, List.filter_nil, List.append_nil,
        Bool.false_eq_true, if_false]

theorem nodup_groups (entries : List (Name × Name)) : ((groups entries).map Prod.fst).Nodup ∧
    ∀ k, k ∈ (groups entries).map Prod.fst ↔ k ∈ entries.map Prod.fst := by
  induction entries using List.reverseRecOn with
  | nil => exact ⟨List.nodup_nil, fun k => Iff.rfl⟩
  | append_singleton entries e ih =>
    obtain ⟨hn, hmem⟩ := ih
    rw [groups_append, map_fst_addToFile]
    by_cases hm : e.1 ∈ (groups entries).map Prod.fst
    · rw [if_pos hm]
      refine ⟨hn, fun k => ?_⟩
      rw [hmem, List.map_append, List.mem_append]
      refine (or_iff_left_of_imp fun hk => ?_).symm
      rw [List.map_singleton, List.mem_singleton] at hk
      rw [hk]
      exact (hmem _).mp hm
    · rw [if_neg hm]
      refine ⟨?_, fun k => ?_⟩
      · apply hn.append (List.nodup_singleton _)
        intro k hk hke
        rw [List.mem_singleton] at hke
        exact hm (hke ▸ hk)
      · rw [List.mem_append, hmem, List.map_append, List.mem_append]
        rfl

theorem lookup_of_mem {β : Type} {l : List (Name × β)} {e : Name × β} (hn : (l.map Prod.fst).Nodup) (h : e ∈ l) :
    l.lookup e.1 = some e.2 := by
  induction l with
  | nil => cases h
  | cons x l ih =>
    obtain ⟨name, b⟩ := x
    rw [List.map_cons, List.nodup_cons] at hn
    rw [List.lookup_cons]
    rcases List.mem_cons.mp h with rfl | h
    · simp
    · have hne : (e.1 == name) = false := by
        rw [beq_eq_false_iff_ne]
        intro heq
        exact hn.1 (List.mem_map.mpr ⟨e, h, heq⟩)
      rw [hne]
      exact ih hn.2 h

theorem mem_groups {file : Name × List Name} (h : file ∈ groups entries) :
    file.1 ∈ entries.map Prod.fst ∧ ∀ v ∈ file.2, v ∈ entries.map Prod.snd := by
  have hfst : file.1 ∈ entries.map Prod.fst := ((nodup_groups entries).2 _).mp (List.mem_map_of_mem h)
  refine ⟨hfst, ?_⟩
  have hlook := lookup_of_mem (nodup_groups entries).1 h
  rw [lookup_groups, if_pos hfst] at hlook
  intro v hv
  rw [← Option.some.inj hlook] at hv
  obtain ⟨e, he, rfl⟩ := List.mem_map.mp hv
  exact List.mem_map_of_mem (List.mem_of_mem_filter he)

section Text

theorem numberText_ne (n : ℕ) : numberText n ≠ [] := Nat.toDigits_ne_nil

theorem not_mem_numberText {c : Char} (hc : c.isDigit = false) (n : ℕ) : c ∉ numberText n := by
  intro h
  rw [isDigit_toDigits c h] at hc
  cases hc

theorem not_mem_locationText {c : Char} (hc : c.isDigit = false) (hdot : c ≠ '.') {info : PDBPageInfo}
    (hpos : 0 ≤ info.startPos) (i : ℕ) : c ∉ locationText i info := by
  have h := not_mem_numberText hc
  rw [locationText, positionText, if_neg (by omega)]
  simp [h, hdot]

theorem field_numberText (n : ℕ) (rest : Name) :
    Manager.field (numberText n ++ '.' :: rest) = (numberText n, rest) := by
  have hall : ∀ c ∈ numberText n, decide (c ≠ '.') = true := by
    intro c hc
    rw [decide_eq_true_iff]
    rintro rfl
    exact not_mem_numberText (by decide) n hc
  rw [Manager.field, List.takeWhile_append_of_pos hall, List.dropWhile_append_of_pos hall]
  simp

theorem field_numberText_end (n : ℕ) : Manager.field (numberText n) = (numberText n, []) := by
  have hall : ∀ c ∈ numberText n, decide (c ≠ '.') = true := by
    intro c hc
    rw [decide_eq_true_iff]
    rintro rfl
    exact not_mem_numberText (by decide) n hc
  rw [Manager.field, List.takeWhile_eq_self_iff.mpr hall, List.dropWhile_eq_nil_iff.mpr hall]
  rfl

end Text

namespace Manager

variable {m : Manager} {set : PDBSet} {key : PDBSet × ℕ} {info : PDBPageInfo}

theorem mem_setsInOrder : set ∈ m.setsInOrder ↔ set ∈ m.sets := List.mem_insertionSort _

def locationTable (m : Manager) : List ((PDBSet × ℕ) × PDBPageInfo) :=
  m.locatedInOrder.filterMap fun key => (m.state.pageLocations key).map fun info => (key, info)

theorem mem_locationTable {e : (PDBSet × ℕ) × PDBPageInfo} :
    e ∈ m.locationTable ↔ e.1 ∈ m.located ∧ m.state.pageLocations e.1 = some e.2 := by
  rw [locationTable, List.mem_filterMap]
  constructor
  · rintro ⟨key, hkey, he⟩
    obtain ⟨info, hinfo, rfl⟩ := Option.map_eq_some_iff.mp he
    exact ⟨(List.mem_insertionSort _).mp hkey, hinfo⟩
  · rintro ⟨hkey, hinfo⟩
    exact ⟨e.1, (List.mem_insertionSort _).mpr hkey, by rw [hinfo]; rfl⟩

theorem allFiles_eq (m : Manager) : m.allFiles =
    groups (m.locationTable.map fun e => (pagesOf e.1.1, locationText e.1.2 e.2)) := by
  unfold allFiles groups locationTable
  rw [List.foldl_map, List.foldl_filterMap]
  congr 1
  funext files key
  cases m.state.pageLocations key with
  | none => rfl
  | some info => rfl

def header (m : Manager) : List (Name × Name) :=
  [(MetaKey.pageSize, numberText m.cfg.pageSize),
    (MetaKey.logOfPageSize, numberText m.cfg.logOfPageSize),
    (MetaKey.numPages, numberText m.cfg.numPages),
    (MetaKey.tempFile, m.tempFile),
    (MetaKey.metaDataFile, m.metaDataFile),
    (MetaKey.storageLoc, m.cfg.storageLoc),
    (MetaKey.setNames, FileData.joined (m.setsInOrder.map (·.setName))),
    (MetaKey.dbNames, FileData.joined (m.setsInOrder.map (·.dbName))),
    (MetaKey.endPosForEachFile,
      FileData.joined (m.setsInOrder.map fun set => numberText (m.state.endOfFiles set)))]

def fields (m : Manager) : List (Name × Name) :=
  m.header ++ m.allFiles.map fun file => (file.1, FileData.joined file.2)

structure Writable (m : Manager) : Prop where
  names : ∀ set ∈ m.sets, set.Plain
  paths : ∀ path ∈ [m.tempFile, m.metaDataFile, m.cfg.storageLoc], '|' ∉ path ∧ '\n' ∉ path
  short : ∀ ent ∈ m.fields, ent.1.length + ent.2.length + 3 < 2 ^ 31
  located : ∀ key ∈ m.located, key.1 ∈ m.sets
  pos : ∀ key info, m.state.pageLocations key = some info → 0 ≤ info.startPos

end Manager

theorem not_mem_joined {c : Char} {l : List Name} (hc : c ≠ '#') (h : ∀ s ∈ l, c ∉ s) : c ∉ FileData.joined l := by
  intro hm
  obtain ⟨s, hs, hcs⟩ := List.mem_flatMap.mp hm
  rcases List.mem_append.mp hcs with hx | hx
  · exact h s hs hx
  · exact hc (List.mem_singleton.mp hx)

theorem dot_mem_pagesOf (set : PDBSet) : '.' ∈ pagesOf set := by simp [pagesOf]

theorem PDBSet.Plain.not_mem_pagesOf {set : PDBSet} (h : set.Plain) {c : Char} (hc : c ∈ ['#', '|', '\n']) :
    c ∉ pagesOf set := by
  have hin : c ∈ ['#', '|', '.', '\n'] := by
    simp only [List.mem_cons, List.not_mem_nil, or_false] at hc ⊢
    rcases hc with rfl | rfl | rfl
    · simp
    · simp
    · simp
  have hdot : c ≠ '.' := by
    rintro rfl
    exact absurd hc (by decide)
  simp [pagesOf, h.setName_free c hin, h.dbName_free c hin, hdot]

theorem PDBSet.Plain.pagesOf_inj {set set' : PDBSet} (h : set.Plain) (h' : set'.Plain)
    (heq : pagesOf set = pagesOf set') : set = set' := by
  have hfield : ∀ s : PDBSet, s.Plain → Manager.field (pagesOf s) = (s.setName, s.dbName) := by
    intro s hs
    have hall : ∀ c ∈ s.setName, decide (c ≠ '.') = true := by
      intro c hc
      rw [decide_eq_true_iff]
      rintro rfl
      exact hs.setName_free '.' (by decide) hc
    rw [Manager.field, pagesOf, List.takeWhile_append_of_pos hall, List.dropWhile_append_of_pos hall]
    simp
  have hx := hfield set h
  rw [heq, hfield set' h'] at hx
  cases set
  cases set'
  cases hx
  rfl

namespace Manager

variable {m : Manager}

theorem header_keys (m : Manager) : m.header.map Prod.fst = [MetaKey.pageSize, MetaKey.logOfPageSize,
    MetaKey.numPages, MetaKey.tempFile, MetaKey.metaDataFile, MetaKey.storageLoc, MetaKey.setNames, MetaKey.dbNames,
    MetaKey.endPosForEachFile] := rfl

theorem header_keys_plain (m : Manager) : ∀ k ∈ m.header.map Prod.fst, '.' ∉ k ∧ '|' ∉ k ∧ '\n' ∉ k := by
  rw [header_keys]
  decide

theorem Writable.entry (h : m.Writable) {e : Name × Name}
    (he : e ∈ m.locationTable.map fun e => (pagesOf e.1.1, locationText e.1.2 e.2)) :
    ∃ set ∈ m.sets, e.1 = pagesOf set ∧ ∃ i info, e.2 = locationText i info ∧ 0 ≤ info.startPos := by
  obtain ⟨x, hx, rfl⟩ := List.mem_map.mp he
  obtain ⟨hkey, hinfo⟩ := mem_locationTable.mp hx
  exact ⟨x.1.1, h.located _ hkey, rfl, x.1.2, x.2, rfl, h.pos _ _ hinfo⟩

theorem Writable.file (h : m.Writable) {file : Name × List Name} (hf : file ∈ m.allFiles) :
    (∃ set ∈ m.sets, file.1 = pagesOf set) ∧
      ∀ v ∈ file.2, ∃ i info, v = locationText i info ∧ 0 ≤ info.startPos := by
  rw [allFiles_eq] at hf
  obtain ⟨hfst, hsnd⟩ := mem_groups hf
  constructor
  · obtain ⟨e, he, heq⟩ := List.mem_map.mp hfst
    obtain ⟨set, hset, hname, -⟩ := h.entry he
    exact ⟨set, hset, heq.symm.trans hname⟩
  · intro v hv
    obtain ⟨e, he, heq⟩ := List.mem_map.mp (hsnd v hv)
    obtain ⟨-, -, -, i, info, hval, hpos⟩ := h.entry he
    exact ⟨i, info, heq.symm.trans hval, hpos⟩

theorem Writable.nodup (h : m.Writable) : (m.fields.map Prod.fst).Nodup := by
  have hkeys : (m.allFiles.map fun file => (file.1, FileData.joined file.2)).map Prod.fst =
      m.allFiles.map Prod.fst := by
    rw [List.map_map]
    rfl
  rw [fields, List.map_append, hkeys, List.nodup_append]
  refine ⟨?_, ?_, ?_⟩
  · rw [header_keys]
    decide
  · rw [allFiles_eq]
    exact (nodup_groups _).1
  · rintro k hk k' hk' rfl
    obtain ⟨file, hf, rfl⟩ := List.mem_map.mp hk'
    obtain ⟨⟨set, -, hname⟩, -⟩ := h.file hf
    apply (header_keys_plain m _ hk).1
    rw [hname]
    exact dot_mem_pagesOf set

theorem Writable.metaData_eq (h : m.Writable) : m.metaData = m.fields := putAll_eq h.nodup

theorem separators_plain : ∀ c ∈ ['|', '\n'],
    c.isDigit = false ∧ c ≠ '#' ∧ c ≠ '.' ∧ c ∈ ['#', '|', '.', '\n'] ∧ c ∈ ['#', '|', '\n'] := by
  intro c hc
  rw [List.mem_cons, List.mem_singleton] at hc
  rcases hc with rfl | rfl <;> decide

theorem Writable.path (h : m.Writable) {c : Char} (hc : c ∈ ['|', '\n']) {path : Name}
    (hp : path ∈ [m.tempFile, m.metaDataFile, m.cfg.storageLoc]) : c ∉ path := by
  rw [List.mem_cons, List.mem_singleton] at hc
  rcases hc with rfl | rfl
  · exact (h.paths path hp).1
  · exact (h.paths path hp).2

theorem Writable.header_values (h : m.Writable) {c : Char} (hc : c ∈ ['|', '\n']) {ent : Name × Name}
    (hent : ent ∈ m.header) : c ∉ ent.2 := by
  obtain ⟨hdigit, hhash, -, hin, -⟩ := separators_plain c hc
  have hnumber := not_mem_numberText hdigit
  have hmem : ∀ set ∈ m.setsInOrder, set.Plain := fun set hset => h.names set (mem_setsInOrder.mp hset)
  simp only [header, List.mem_cons, List.not_mem_nil, or_false] at hent
  rcases hent with rfl | rfl | rfl | rfl | rfl | rfl | rfl | rfl | rfl
  · exact hnumber _
  · exact hnumber _
  · exact hnumber _
  · exact h.path hc (by simp)
  · exact h.path hc (by simp)
  · exact h.path hc (by simp)
  · apply not_mem_joined hhash
    intro s hs
    obtain ⟨set, hset, rfl⟩ := List.mem_map.mp hs
    exact (hmem set hset).setName_free c hin
  · apply not_mem_joined hhash
    intro s hs
    obtain ⟨set, hset, rfl⟩ := List.mem_map.mp hs
    exact (hmem set hset).dbName_free c hin
  · apply not_mem_joined hhash
    intro s hs
    obtain ⟨set, -, rfl⟩ := List.mem_map.mp hs
    exact hnumber _

theorem Writable.fields_plain (h : m.Writable) {c : Char} (hc : c ∈ ['|', '\n']) {ent : Name × Name}
    (hent : ent ∈ m.fields) : c ∉ ent.1 ∧ c ∉ ent.2 := by
  obtain ⟨hdigit, hhash, hdot, -, hin⟩ := separators_plain c hc
  rcases List.mem_append.mp hent with hx | hx
  · refine ⟨?_, h.header_values hc hx⟩
    have hkey := (header_keys_plain m _ (List.mem_map_of_mem hx)).2
    rw [List.mem_cons, List.mem_singleton] at hc
    rcases hc with rfl | rfl
    · exact hkey.1
    · exact hkey.2
  · obtain ⟨file, hf, rfl⟩ := List.mem_map.mp hx
    obtain ⟨⟨set, hset, hname⟩, hvals⟩ := h.file hf
    constructor
    · dsimp only
      rw [hname]
      exact (h.names set hset).not_mem_pagesOf hin
    · apply not_mem_joined hhash
      intro v hv
      obtain ⟨i, info, rfl, hpos⟩ := hvals v hv
      exact not_mem_locationText hdigit hdot hpos i

theorem Writable.read (h : m.Writable) : FileData.read m.metaData.save = m.fields := by
  have hclean : FileData.Clean m.fields := by
    refine ⟨h.nodup, fun ent hent => ?_, fun ent hent => ?_, h.short⟩
    · exact ⟨(h.fields_plain (by decide) hent).1, (h.fields_plain (by decide) hent).1⟩
    · exact ⟨(h.fields_plain (by decide) hent).2, (h.fields_plain (by decide) hent).2⟩
  rw [h.metaData_eq, FileData.read_save hclean]

end Manager

end PlinyCompute.BufferManager
