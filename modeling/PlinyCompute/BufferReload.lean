import PlinyCompute.BufferMetadata

namespace PlinyCompute.BufferManager

open Function Transition

section Folds

variable {α β γ : Type} [DecidableEq α]

theorem foldl_update (v : β → γ) {l : List (α × β)} {f : α → γ} (hf : ∀ e ∈ l, f e.1 = v e.2) (g : α → γ) (a : α) :
    l.foldl (fun g e => update g e.1 (v e.2)) g a = if a ∈ l.map Prod.fst then f a else g a := by
  induction l generalizing g with
  | nil => rfl
  | cons e l ih =>
    rw [List.foldl_cons, ih fun x hx => hf x (List.mem_cons_of_mem e hx), List.map_cons]
    by_cases hl : a ∈ l.map Prod.fst
    · rw [if_pos hl, if_pos (List.mem_cons_of_mem _ hl)]
    · rw [if_neg hl]
      by_cases ha : a = e.1
      · rw [if_pos (by rw [ha]; exact List.mem_cons_self), ha, update_self, hf e List.mem_cons_self]
      · rw [if_neg (by simp only [List.mem_cons, not_or]; exact ⟨ha, hl⟩), update_of_ne ha]

theorem foldl_insert {α : Type} [BEq α] [LawfulBEq α] (l : List (α × β)) {keys : List α} (hn : keys.Nodup) :
    (l.foldl (fun keys e => keys.insert e.1) keys).Nodup ∧
      ∀ a, a ∈ l.foldl (fun keys e => keys.insert e.1) keys ↔ a ∈ keys ∨ a ∈ l.map Prod.fst := by
  induction l generalizing keys with
  | nil => exact ⟨hn, fun a => by simp⟩
  | cons e l ih =>
    have hinsert : (keys.insert e.1).Nodup := by
      by_cases hk : e.1 ∈ keys
      · rw [List.insert_of_mem hk]
        exact hn
      · rw [List.insert_of_not_mem hk]
        exact List.nodup_cons.mpr ⟨hk, hn⟩
    obtain ⟨h1, h2⟩ := ih hinsert
    refine ⟨h1, fun a => ?_⟩
    rw [List.foldl_cons, h2, List.mem_insert_iff, List.map_cons, List.mem_cons]
    tauto

end Folds

namespace Manager

variable {m : Manager} {set : PDBSet} {key : PDBSet × ℕ} {info : PDBPageInfo}

def addLocation (m : Manager) (e : (PDBSet × ℕ) × PDBPageInfo) : Manager :=
  { m with
    located := m.located.insert e.1
    state := { m.state with pageLocations := update m.state.pageLocations e.1 (some e.2) } }

def addEnd (m : Manager) (e : PDBSet × ℕ) : Manager :=
  { m with
    sets := m.sets.insert e.1
    state := { m.state with endOfFiles := update m.state.endOfFiles e.1 e.2 } }

theorem readLocation_text (m : Manager) (set : PDBSet) (i : ℕ) (hpos : 0 ≤ info.startPos) :
    m.readLocation set (locationText i info) = .ok (m.addLocation ((set, i), info)) := by
  obtain ⟨n, hn⟩ := Int.eq_ofNat_of_zero_le hpos
  unfold readLocation
  rw [locationText, positionText, if_neg (by omega), hn, Int.toNat_natCast, List.append_assoc, List.cons_append]
  rw [field_numberText]
  dsimp only
  rw [field_numberText]
  dsimp only
  rw [field_numberText_end]
  dsimp only
  rw [numberText, numberText, numberText, stoul_toDigits, stoul_toDigits, stoul_toDigits]
  dsimp only
  rw [← hn]
  rfl

theorem readLocation_all (set : PDBSet) {l : List (ℕ × PDBPageInfo)} (h : ∀ e ∈ l, 0 ≤ e.2.startPos) (m : Manager) :
    (l.map fun e => locationText e.1 e.2).foldlM (readLocation set) m =
      .ok (l.foldl (fun m e => m.addLocation ((set, e.1), e.2)) m) := by
  induction l generalizing m with
  | nil => rfl
  | cons e l ih =>
    rw [List.map_cons, List.foldlM_cons, readLocation_text m set e.1 (h e List.mem_cons_self), ok_bind,
      ih fun e he => h e (List.mem_cons_of_mem _ he)]
    rfl

theorem readEnds_all (l : List (PDBSet × ℕ)) (m : Manager) :
    readEnds (l.map (·.1.setName)) (l.map (·.1.dbName)) (l.map fun e => numberText e.2) m = .ok (l.foldl addEnd m) := by
  induction l generalizing m with
  | nil => rfl
  | cons e l ih =>
    rw [List.map_cons, List.map_cons, List.map_cons, readEnds, numberText, stoul_toDigits]
    dsimp only
    rw [ih]
    rfl

theorem foldl_addEnd (l : List (PDBSet × ℕ)) (m : Manager) : l.foldl addEnd m = { m with
    sets := l.foldl (fun sets e => sets.insert e.1) m.sets
    state := { m.state with endOfFiles := l.foldl (fun ends e => update ends e.1 e.2) m.state.endOfFiles } } := by
  induction l generalizing m with
  | nil => rfl
  | cons e l ih => exact ih (m.addEnd e)

theorem foldl_addLocation (l : List ((PDBSet × ℕ) × PDBPageInfo)) (m : Manager) : l.foldl addLocation m = { m with
    located := l.foldl (fun located e => located.insert e.1) m.located
    state := { m.state with
      pageLocations := l.foldl (fun locs e => update locs e.1 (some e.2)) m.state.pageLocations } } := by
  induction l generalizing m with
  | nil => rfl
  | cons e l ih => exact ih (m.addLocation e)

theorem Writable.getStringList (h : m.Writable) {k : Name} {value : List Name}
    (hent : (k, FileData.joined value) ∈ m.fields) (hne : ∀ s ∈ value, s ≠ []) (hc : ∀ s ∈ value, '#' ∉ s) :
    FileData.getStringList k m.fields = .ok value := by
  have hshort := h.short _ hent
  have hlook := lookup_of_mem h.nodup hent
  dsimp only at hshort hlook
  unfold FileData.getStringList
  rw [hlook]
  exact stringListFrom_joined (by omega) hne hc

def pagesIn (m : Manager) (set : PDBSet) : List ((PDBSet × ℕ) × PDBPageInfo) :=
  m.locationTable.filter (·.1.1 = set)

theorem Writable.group (h : m.Writable) {set : PDBSet} (hset : set ∈ m.sets) :
    ((m.locationTable.map fun e => (MetaKey.pagesOf e.1.1, locationText e.1.2 e.2)).filter
      (·.1 = MetaKey.pagesOf set)).map Prod.snd =
      ((m.pagesIn set).map fun e => (e.1.2, e.2)).map fun e => locationText e.1 e.2 := by
  rw [List.filter_map, List.map_map, List.map_map, pagesIn]
  have hsame : m.locationTable.filter ((fun e => decide (e.1 = MetaKey.pagesOf set)) ∘
      fun e => (MetaKey.pagesOf e.1.1, locationText e.1.2 e.2)) = m.locationTable.filter (·.1.1 = set) := by
    apply List.filter_congr
    intro e he
    have hplain := h.names _ (h.located _ (mem_locationTable.mp he).1)
    simp only [Function.comp_apply, decide_eq_decide]
    exact ⟨hplain.pagesOf_inj (h.names set hset), fun heq => by rw [heq]⟩
  rw [hsame]
  rfl

theorem Writable.getPagesOf (h : m.Writable) {set : PDBSet} (hset : set ∈ m.sets) :
    FileData.getStringList (MetaKey.pagesOf set) m.fields =
      .ok (((m.pagesIn set).map fun e => (e.1.2, e.2)).map fun e => locationText e.1 e.2) := by
  have hlook := lookup_groups (m.locationTable.map fun e => (MetaKey.pagesOf e.1.1, locationText e.1.2 e.2))
    (MetaKey.pagesOf set)
  rw [h.group hset, ← allFiles_eq] at hlook
  by_cases hmem : MetaKey.pagesOf set ∈
      (m.locationTable.map fun e => (MetaKey.pagesOf e.1.1, locationText e.1.2 e.2)).map Prod.fst
  · rw [if_pos hmem] at hlook
    obtain ⟨hn, hkeys⟩ := nodup_groups (m.locationTable.map fun e => (MetaKey.pagesOf e.1.1, locationText e.1.2 e.2))
    rw [← hkeys, ← allFiles_eq] at hmem
    rw [← allFiles_eq] at hn
    obtain ⟨file, hfile, hname⟩ := List.mem_map.mp hmem
    have hvalue := lookup_of_mem hn hfile
    rw [hname, hlook] at hvalue
    rw [Option.some.inj hvalue]
    have hvals := (h.file hfile).2
    apply h.getStringList
    · rw [← hname]
      exact List.mem_append_right _ (List.mem_map_of_mem hfile)
    · intro v hv
      obtain ⟨i, info, rfl, -⟩ := hvals v hv
      simp [locationText, numberText_ne]
    · intro v hv
      obtain ⟨i, info, rfl, hpos⟩ := hvals v hv
      exact not_mem_locationText (by decide) (by decide) hpos i
  · rw [if_neg hmem] at hlook
    have hnil : m.pagesIn set = [] := by
      rw [List.eq_nil_iff_forall_not_mem]
      intro e he
      obtain ⟨he, hx⟩ := List.mem_filter.mp he
      apply hmem
      rw [List.map_map]
      refine List.mem_map.mpr ⟨e, he, ?_⟩
      rw [← of_decide_eq_true hx]
      rfl
    have hnone : m.fields.lookup (MetaKey.pagesOf set) = none := by
      rw [List.lookup_eq_none_iff] at hlook ⊢
      intro ent hent
      rcases List.mem_append.mp hent with hx | hx
      · rw [bne_iff_ne]
        intro heq
        apply (header_keys_plain m _ (List.mem_map_of_mem hx)).1
        rw [← heq]
        exact dot_mem_pagesOf set
      · obtain ⟨file, hf, rfl⟩ := List.mem_map.mp hx
        exact hlook file hf
    rw [FileData.getStringList, hnone, hnil]
    rfl

theorem Writable.readMappings (h : m.Writable) {set : PDBSet} (hset : set ∈ m.sets) (m' : Manager) :
    readMappings m.fields m' set = .ok ((m.pagesIn set).foldl addLocation m') := by
  have hlist := h.getPagesOf hset
  have hpos : ∀ e ∈ (m.pagesIn set).map fun e => (e.1.2, e.2), 0 ≤ e.2.startPos := by
    intro e he
    obtain ⟨x, hx, rfl⟩ := List.mem_map.mp he
    exact h.pos _ _ (mem_locationTable.mp (List.mem_of_mem_filter hx)).2
  unfold Manager.readMappings
  rw [hlist, ok_bind, readLocation_all set hpos, List.foldl_map]
  congr 1
  apply List.foldl_ext
  intro m' e he
  have hset := of_decide_eq_true (List.mem_filter.mp he).2
  rw [← hset]

end Manager

theorem classesLoop_ok {pageSize fuel cur classes c k n : ℕ} (h : classesLoop pageSize fuel cur classes = .ok (c, k))
    (hcur : cur = 2 ^ (n + classes) ∨ cur = 0) : c = 2 ^ (n + k) ∧ pageSize < c := by
  induction fuel generalizing cur classes with
  | zero => cases h
  | succ fuel ih =>
    rw [classesLoop] at h
    by_cases hle : cur ≤ pageSize
    · rw [if_pos hle] at h
      apply ih h
      rcases hcur with rfl | rfl
      · rw [← Nat.pow_succ]
        by_cases hlt : (n + classes).succ < 64
        · exact Or.inl (Nat.mod_eq_of_lt (Nat.pow_lt_pow_right (by omega) hlt))
        · exact Or.inr (Nat.mod_eq_zero_of_dvd (Nat.pow_dvd_pow 2 (by omega)))
      · exact Or.inr rfl
    · rw [if_neg hle] at h
      cases h
      rcases hcur with rfl | rfl
      · exact ⟨rfl, by omega⟩
      · omega

theorem initializeNew_ok {n pageSize numPages : ℕ} {openFile : Name → Option ℕ} {tempFile metaFile storageLoc : Name}
    {files : ℕ → ℕ → UInt8} {m : Manager}
    (h : initializeNew n openFile tempFile pageSize numPages metaFile storageLoc files = .ok m) :
    ∃ cfg : Config, m = ⟨cfg, tempFile, metaFile, [], [], initialState cfg (fun _ => 0) files⟩ ∧
      (cfg.logOfMinPageSize = n ∧ cfg.openFile = openFile ∧ cfg.pageSize = pageSize ∧ cfg.numPages = numPages ∧
        cfg.storageLoc = storageLoc) ∧
      ∀ metaFile files, initializeNew n openFile tempFile pageSize numPages metaFile storageLoc files =
        .ok ⟨cfg, tempFile, metaFile, [], [], initialState cfg (fun _ => 0) files⟩ := by
  unfold initializeNew at h ⊢
  cases hfd : openFile tempFile with
  | none =>
    rw [hfd] at h
    cases h
  | some fd =>
    rw [hfd] at h
    dsimp only at h ⊢
    obtain ⟨⟨c, k⟩, hloop, h⟩ := bind_eq_ok.mp h
    dsimp only at h
    obtain ⟨hc, hlt⟩ := classesLoop_ok (n := n) hloop (Or.inl rfl)
    by_cases hbad : c ≠ pageSize * 2 % 2 ^ 64 ∨ k = 0
    · rw [if_pos hbad] at h
      cases h
    · rw [if_neg hbad] at h
      cases h
      rw [not_or, not_not] at hbad
      obtain ⟨hsize, hk⟩ := hbad
      refine ⟨_, rfl, ⟨rfl, rfl, ?_, rfl, rfl⟩, fun metaFile files => ?_⟩
      · have hpow : 2 ^ (n + k) = 2 ^ (n + (k - 1)) * 2 := by
          rw [← Nat.pow_succ]
          congr 1
          omega
        rw [Config.pageSize_eq]
        dsimp only
        omega
      · rw [hloop, ok_bind]
        dsimp only
        rw [if_neg (by rw [not_or, not_not]; exact ⟨hsize, hk⟩)]

namespace Manager

variable {m : Manager}

def Configured (m : Manager) : Prop :=
  ∀ metaFile files, initializeNew m.cfg.logOfMinPageSize m.cfg.openFile m.tempFile m.cfg.pageSize m.cfg.numPages
    metaFile m.cfg.storageLoc files =
      .ok ⟨m.cfg, m.tempFile, metaFile, [], [], initialState m.cfg (fun _ => 0) files⟩

structure Keyed (m : Manager) : Prop where
  sets : m.sets.Nodup
  located : m.located.Nodup
  locations : ∀ key, key ∈ m.located ↔ m.state.pageLocations key ≠ none
  ends : ∀ set, m.state.endOfFiles set ≠ 0 → set ∈ m.sets

theorem Writable.field (h : m.Writable) {k value : Name} (hent : (k, value) ∈ m.header) :
    m.fields.lookup k = some value := lookup_of_mem h.nodup (List.mem_append_left _ hent)

theorem Writable.number (h : m.Writable) {k : Name} {n : ℕ} (hent : (k, numberText n) ∈ m.header) :
    FileData.getUnsignedLong k m.fields = some n := by
  rw [FileData.getUnsignedLong, h.field hent]
  exact stoul_toDigits n

theorem Writable.names_list (h : m.Writable) {k : Name} {f : PDBSet → Name}
    (hent : (k, FileData.joined (m.setsInOrder.map f)) ∈ m.header)
    (hf : ∀ set, set.Plain → f set ≠ [] ∧ '#' ∉ f set) :
    FileData.getStringList k m.fields = .ok (m.setsInOrder.map f) := by
  have hmem : ∀ set ∈ m.setsInOrder, set.Plain := fun set hset => h.names set (mem_setsInOrder.mp hset)
  apply h.getStringList (List.mem_append_left _ hent)
  · intro s hs
    obtain ⟨set, hset, rfl⟩ := List.mem_map.mp hs
    exact (hf set (hmem set hset)).1
  · intro s hs
    obtain ⟨set, hset, rfl⟩ := List.mem_map.mp hs
    exact (hf set (hmem set hset)).2

theorem Writable.readAll (h : m.Writable) {l : List PDBSet} (hl : ∀ set ∈ l, set ∈ m.sets) (m' : Manager) :
    l.foldlM (Manager.readMappings m.fields) m' = .ok ((l.flatMap m.pagesIn).foldl addLocation m') := by
  induction l generalizing m' with
  | nil => rfl
  | cons set l ih =>
    rw [List.foldlM_cons, h.readMappings (hl set List.mem_cons_self), ok_bind,
      ih fun x hx => hl x (List.mem_cons_of_mem set hx), List.flatMap_cons, List.foldl_append]

theorem Keyed.readEnds (hk : m.Keyed) (m' : Manager) (hs : m'.sets = [])
    (he : m'.state.endOfFiles = fun _ => 0) : ∃ sets, Manager.readEnds (m.setsInOrder.map (·.setName))
        (m.setsInOrder.map (·.dbName)) (m.setsInOrder.map fun set => numberText (m.state.endOfFiles set)) m' =
      .ok { m' with sets := sets, state := { m'.state with endOfFiles := m.state.endOfFiles } } ∧
      sets.Nodup ∧ ∀ set, set ∈ sets ↔ set ∈ m.sets := by
  obtain ⟨l, hl⟩ : ∃ l, l = m.setsInOrder.map fun set => (set, m.state.endOfFiles set) := ⟨_, rfl⟩
  have hfst : l.map Prod.fst = m.setsInOrder := by
    rw [hl, List.map_map]
    exact List.map_id _
  have hvalues : ∀ e ∈ l, m.state.endOfFiles e.1 = e.2 := by
    intro e he
    rw [hl] at he
    obtain ⟨set, -, rfl⟩ := List.mem_map.mp he
    rfl
  have hends : l.foldl (fun ends e => update ends e.1 e.2) m'.state.endOfFiles = m.state.endOfFiles := by
    funext set
    rw [foldl_update (fun n => n) hvalues, hfst, he]
    by_cases hset : set ∈ m.setsInOrder
    · rw [if_pos hset]
    · rw [if_neg hset]
      by_contra hne
      exact hset (mem_setsInOrder.mpr (hk.ends set (Ne.symm hne)))
  obtain ⟨hn, hmem⟩ := foldl_insert l (List.nodup_nil : ([] : List PDBSet).Nodup)
  refine ⟨l.foldl (fun sets e => sets.insert e.1) [], ?_, hn, fun set => ?_⟩
  · have hread := readEnds_all l m'
    rw [foldl_addEnd, hends, hs] at hread
    rw [← hread, hl, List.map_map, List.map_map, List.map_map]
    rfl
  · rw [hmem, hfst, mem_setsInOrder]
    simp

theorem Writable.readLocations (h : m.Writable) (hk : m.Keyed) (m' : Manager)
    (hs : ∀ set, set ∈ m'.sets ↔ set ∈ m.sets) (hloc : m'.located = []) (hnone : m'.state.pageLocations = fun _ => none) : ∃ located,
      m'.setsInOrder.foldlM (Manager.readMappings m.fields) m' =
        .ok { m' with located := located, state := { m'.state with pageLocations := m.state.pageLocations } } ∧
      located.Nodup ∧ ∀ key, key ∈ located ↔ key ∈ m.located := by
  obtain ⟨l, hl⟩ : ∃ l, l = m'.setsInOrder.flatMap m.pagesIn := ⟨_, rfl⟩
  have hvalues : ∀ e ∈ l, m.state.pageLocations e.1 = some e.2 := by
    intro e he
    rw [hl] at he
    obtain ⟨set, -, he⟩ := List.mem_flatMap.mp he
    exact (mem_locationTable.mp (List.mem_of_mem_filter he)).2
  have hkeys : ∀ key, key ∈ l.map Prod.fst ↔ key ∈ m.located := by
    intro key
    constructor
    · intro hkey
      obtain ⟨e, he, rfl⟩ := List.mem_map.mp hkey
      rw [hl] at he
      obtain ⟨set, -, he⟩ := List.mem_flatMap.mp he
      exact (mem_locationTable.mp (List.mem_of_mem_filter he)).1
    · intro hkey
      obtain ⟨info, hinfo⟩ := Option.ne_none_iff_exists'.mp ((hk.locations key).mp hkey)
      refine List.mem_map.mpr ⟨(key, info), ?_, rfl⟩
      rw [hl]
      refine List.mem_flatMap.mpr ⟨key.1, ?_, List.mem_filter.mpr ⟨mem_locationTable.mpr ⟨hkey, hinfo⟩, by simp⟩⟩
      exact mem_setsInOrder.mpr ((hs _).mpr (h.located key hkey))
  have hlocs : l.foldl (fun (locs : PDBSet × ℕ → Option PDBPageInfo) e => update locs e.1 (some e.2))
      m'.state.pageLocations = m.state.pageLocations := by
    funext key
    rw [foldl_update some hvalues, hnone]
    by_cases hkey : key ∈ l.map Prod.fst
    · rw [if_pos hkey]
    · rw [if_neg hkey]
      by_contra hne
      exact hkey ((hkeys key).mpr ((hk.locations key).mpr (Ne.symm hne)))
  obtain ⟨hn, hmem⟩ := foldl_insert l (List.nodup_nil : ([] : List (PDBSet × ℕ)).Nodup)
  refine ⟨l.foldl (fun located e => located.insert e.1) [], ?_, hn, fun key => ?_⟩
  · have hread := h.readAll (fun set hset => (hs set).mp (mem_setsInOrder.mp hset)) m'
    rw [← hl, foldl_addLocation, hlocs, hloc] at hread
    exact hread
  · rw [hmem, hkeys]
    simp

theorem Writable.initializeFrom (h : m.Writable) (hc : m.Configured) (hk : m.Keyed) (files : ℕ → ℕ → UInt8) :
    ∃ sets located, BufferManager.initializeFrom m.cfg.logOfMinPageSize m.cfg.openFile m.metaDataFile
        m.metaData.save files =
      .ok ⟨m.cfg, m.tempFile, m.metaDataFile, sets, located, restored m.cfg m.state (fun _ => none) files⟩ ∧
      sets.Nodup ∧ located.Nodup ∧ (∀ set, set ∈ sets ↔ set ∈ m.sets) ∧ ∀ key, key ∈ located ↔ key ∈ m.located := by
  have hpage : FileData.getUnsignedLong MetaKey.pageSize m.fields = some m.cfg.pageSize := h.number (by simp [header])
  have hpages : FileData.getUnsignedLong MetaKey.numPages m.fields = some m.cfg.numPages :=
    h.number (by simp [header])
  have htemp : FileData.getString MetaKey.tempFile m.fields = some m.tempFile :=
    h.field (by simp [header])
  have hstorage : FileData.getString MetaKey.storageLoc m.fields = some m.cfg.storageLoc :=
    h.field (by simp [header])
  have hsets : FileData.getStringList MetaKey.setNames m.fields = .ok (m.setsInOrder.map (·.setName)) :=
    h.names_list (by simp [header]) fun set hp => ⟨hp.setName_ne, hp.setName_free '#' (by decide)⟩
  have hdbs : FileData.getStringList MetaKey.dbNames m.fields = .ok (m.setsInOrder.map (·.dbName)) :=
    h.names_list (by simp [header]) fun set hp => ⟨hp.dbName_ne, hp.dbName_free '#' (by decide)⟩
  have hends : FileData.getStringList MetaKey.endPosForEachFile m.fields =
      .ok (m.setsInOrder.map fun set => numberText (m.state.endOfFiles set)) :=
    h.names_list (by simp [header]) fun set _ => ⟨numberText_ne _, not_mem_numberText (by decide) _⟩
  set m₀ : Manager := ⟨m.cfg, m.tempFile, m.metaDataFile, [], [], initialState m.cfg (fun _ => 0) files⟩ with hm₀
  obtain ⟨sets, hread, hn, hmem⟩ := hk.readEnds m₀ rfl rfl
  obtain ⟨located, hlocs, hn', hmem'⟩ := h.readLocations hk
    { m₀ with sets := sets, state := { m₀.state with endOfFiles := m.state.endOfFiles } } hmem rfl rfl
  refine ⟨sets, located, ?_, hn, hn', hmem, hmem'⟩
  unfold BufferManager.initializeFrom
  rw [h.read]
  dsimp only
  rw [hpage, hpages, htemp, hstorage, hsets, hdbs, hends]
  dsimp only [Option.getD_some]
  rw [hc, ok_bind, ok_bind, ok_bind, ok_bind, hread, ok_bind, hlocs]
  rfl

end Manager

end PlinyCompute.BufferManager
