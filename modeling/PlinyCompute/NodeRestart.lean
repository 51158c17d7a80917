import PlinyCompute.BufferReload
import PlinyCompute.ReadYourWrites
import PlinyCompute.StorageMetadata

namespace PlinyCompute.BufferManager

open Function

namespace State

def clearPage (cfg : Config) (s : State) (p : ℕ) : Except Fault State := do
  let addr ← s.getBytes p
  let f := cfg.fullPage addr
  let siblings ← eraseOne p (s.constituentPages f)
  let s := { s with
    constituentPages := update s.constituentPages f siblings
    numPinned := update s.numPinned f (s.numPinned f - 1) }
  let s ← (if s.numPinned f ≠ 0 then .ok s
    else if siblings = [] then do
      let s ← clearUnused f s
      .ok { s with emptyFullPages := s.emptyFullPages ++ [f] }
    else
      let k := (s.page p).location.numBytes
      .ok { s with
        unusedMiniPages := update s.unusedMiniPages f ((s.unusedMiniPages f).1 ++ [addr], (s.unusedMiniPages f).2)
        emptyMiniPages := update s.emptyMiniPages k (s.emptyMiniPages k ++ [addr])
        numPinned := update s.numPinned f (-s.lastTimeTick)
        lastUsed := lruInsert (f, s.lastTimeTick) s.lastUsed
        lastTimeTick := s.lastTimeTick + 1 })
  .ok (s.eraseFromAllPages (s.page p))

def clearSet (cfg : Config) (set : PDBSet) (s : State) : Except Fault State := do
  let pages := s.pagesInOrder.filter fun p => (s.page p).whichSet = some set
  let s ← pages.foldlM (clearPage cfg) { s with fds := update s.fds set none }
  .ok { s with
    pageLocations := fun key => if key.1 = set then none else s.pageLocations key
    endOfFiles := update s.endOfFiles set 0 }

end State

def Manager.clearSet (m : Manager) (set : PDBSet) : Except Fault Manager := do
  let s ← m.state.clearSet m.cfg set
  .ok { m with
    sets := m.sets.erase set
    located := m.located.filter fun key => key.1 ≠ set
    state := s }

end PlinyCompute.BufferManager

namespace PlinyCompute.NodeRestart

open Function Transition BufferManager StorageFrontend StorageHandlers StorageMetadata

structure NodeConfig where
  sharedMemSize : ℕ
  pageSize : ℕ
  rootDirectory : BufferManager.Name

namespace NodeConfig

def dataPath (config : NodeConfig) : BufferManager.Name := config.rootDirectory ++ ['/', 'd', 'a', 't', 'a']

def existingStorage (config : NodeConfig) : BufferManager.Name :=
  config.dataPath ++ ['/', 'm', 'e', 't', 'a', 'd', 'a', 't', 'a', '.', 'p', 'd', 'b']

def metaData (config : NodeConfig) : BufferManager.Name :=
  config.dataPath ++ ['/', 'm', 'e', 't', 'a', 'd', 'a', 't', 'a']

def tempFile (config : NodeConfig) : BufferManager.Name :=
  config.dataPath ++ ['/', 't', 'e', 'm', 'p', 'F', 'i', 'l', 'e', '_', '_', '_', '.', 't', 'm', 'p']

def memorySize (config : NodeConfig) : ℕ := config.sharedMemSize * 1024 * 1024 % 2 ^ 64

end NodeConfig

structure Disk where
  openFile : BufferManager.Name → Option ℕ
  present : ℕ → Bool
  size : ℕ → ℕ
  bytes : ℕ → ℕ → UInt8

namespace Disk

def find (disk : Disk) (path : BufferManager.Name) : Option ℕ := (disk.openFile path).filter disk.present

def text (disk : Disk) (fd : ℕ) : List Char := (List.range (disk.size fd)).map fun i => Char.ofNat (disk.bytes fd i).toNat

end Disk

/-- The constructor looks for `metadata.pdb`, and gives a new manager `metadata` as the file to write. -/
def pdbBufferManagerImpl (logOfMinPageSize : ℕ) (config : NodeConfig) (disk : Disk) : Except Fault Manager :=
  match disk.find config.existingStorage with
  | some fd =>
    initializeFrom logOfMinPageSize disk.openFile config.existingStorage (disk.text fd) disk.bytes
  | none =>
    if config.pageSize = 0 ∨ config.memorySize = 0 then .error .exit
    else
      initializeNew logOfMinPageSize disk.openFile config.tempFile config.pageSize
        (config.memorySize / config.pageSize) config.metaData config.dataPath disk.bytes

structure Node where
  storage : StorageHandlers.World
  manager : Manager
  present : ℕ → Bool

def pdbSet (set : SetId) : PDBSet :=
  ⟨set.1.map fun b => Char.ofNat b.toNat, set.2.map fun b => Char.ofNat b.toNat⟩

def startNode (logOfMinPageSize : ℕ) (config : NodeConfig) (disk : Disk) (storage : StorageHandlers.World) :
    Except Fault Node := do
  let m ← pdbBufferManagerImpl logOfMinPageSize config disk
  .ok ⟨storage, m, fun fd => disk.present fd || fd = m.cfg.tempFileFD⟩

namespace Node

/-- The destructor of the manager: the file it writes its metadata to is made if it is not there. `size` are the sizes
that the other files have. -/
def shutDown (n : Node) (size : ℕ → ℕ) : Except Fault Disk := do
  let (text, files) ← n.manager.destroy
  match n.manager.cfg.openFile n.manager.metaDataFile with
  | none => .ok ⟨n.manager.cfg.openFile, n.present, size, files⟩
  | some fd => .ok ⟨n.manager.cfg.openFile, update n.present fd true, update size fd text.length, files⟩

def restart (logOfMinPageSize : ℕ) (config : NodeConfig) (n : Node) (size : ℕ → ℕ) : Except Fault Node := do
  let disk ← n.shutDown size
  match StorageMetadata.restart n.storage.frontend with
  | none => .error .undefined
  | some frontend => startNode logOfMinPageSize config disk { n.storage with frontend := frontend, handler := fun _ => .idle }

def call (n : Node) (op : Op) : Except Fault Node := do
  let m ← n.manager.call op
  .ok { n with
    manager := m
    present := fun fd => n.present fd ||
      op.opened.any fun set => n.manager.cfg.openFile (n.manager.cfg.fileLoc set) = some fd }

def clears (n : Node) (e : StorageHandlers.Event) : Option SetId :=
  match e with
  | .clear set => if (n.storage.frontend.pagesBeingWrittenTo set).getD ∅ = ∅ then some set else none
  | _ => none

def handle (endReadsEmpty : Bool) (n : Node) (e : StorageHandlers.Event) : Except Fault Node := do
  let w ← (StorageHandlers.World.step endReadsEmpty e n.storage).mapError fun _ => Fault.undefined
  let m ← (match n.clears e with
    | some set => n.manager.clearSet (pdbSet set)
    | none => .ok n.manager)
  .ok { n with storage := w, manager := m }

end Node

inductive NodeEvent
  | storage (e : StorageHandlers.Event)
  | buffer (op : Op)
  | restart (size : ℕ → ℕ)

def nodeStep (logOfMinPageSize : ℕ) (endReadsEmpty : Bool) (config : NodeConfig) (e : NodeEvent) (n : Node) :
    Except Fault Node :=
  match e with
  | .storage e => n.handle endReadsEmpty e
  | .buffer op => n.call op
  | .restart size => n.restart logOfMinPageSize config size

def NodeEvent.Meets (numHandlers : ℕ) (e : NodeEvent) (n : Node) : Prop :=
  match e with
  | .storage e => ∀ h ∈ e.handler?, h < numHandlers
  | .buffer _ => True
  | .restart _ => n.storage.Quiescent numHandlers ∧ Fits n.storage.frontend

def Starts (logOfMinPageSize : ℕ) (config : NodeConfig) (n : Node) : Prop :=
  ∃ disk, startNode logOfMinPageSize config disk StorageHandlers.start = .ok n

def Stored (m : Manager) (set : PDBSet) (q : ℕ) : Prop :=
  ∃ info, m.state.pageLocations (set, q) = some info ∧
    ∀ m', m.call (.getSetPage set q) = .ok m' → ∃ p addr fd, m'.state.allPages (set, q) = some p ∧
      (m'.state.page p).bytes = some addr ∧ m.cfg.openFile (m.cfg.fileLoc set) = some fd ∧
      ∀ k < m.cfg.miniPageSize info.numBytes, m'.state.memory (addr + k) = m.state.files fd (info.startPos.toNat + k)

def Agrees (logOfMinPageSize : ℕ) (config : NodeConfig) (n : Node) (size : ℕ → ℕ) : Prop :=
  ∃ n', n.restart logOfMinPageSize config size = .ok n' ∧
    ∀ set p q, getValidPage n'.storage.frontend set p = some q → Stored n'.manager (pdbSet set) q

def Lists (text : List Char) (set : PDBSet) (q : ℕ) : Prop :=
  (∃ setNames dbNames, (FileData.read text).getStringList MetaKey.setNames = .ok setNames ∧
    (FileData.read text).getStringList MetaKey.dbNames = .ok dbNames ∧
    (set.setName, set.dbName) ∈ setNames.zip dbNames) ∧
  ∃ mappings, (FileData.read text).getStringList (MetaKey.pagesOf set) = .ok mappings ∧
    ∃ b ∈ mappings, stoul (Manager.field b).1 = some q

def Covered (logOfMinPageSize : ℕ) (config : NodeConfig) (disk : Disk) (f : Frontend) : Prop :=
  match disk.find config.existingStorage with
  | none => ∀ set, f.pageStats.lookup set = none
  | some fd =>
    (initializeFrom logOfMinPageSize disk.openFile config.existingStorage (disk.text fd) disk.bytes).isOk = true ∧
      ∀ set stats, f.pageStats.lookup set = some stats → ∀ q ≤ stats.lastPage, Lists (disk.text fd) (pdbSet set) q

def Filled (m m' : Manager) : Prop :=
  m'.cfg = m.cfg ∧ ∃ ends locations, m'.state =
    { m.state with endOfFiles := ends, pageLocations := locations }

section Construction

variable {m m' : Manager} {set : PDBSet}

theorem Filled.refl (m : Manager) : Filled m m := ⟨rfl, m.state.endOfFiles, m.state.pageLocations, rfl⟩

theorem Filled.trans {m'' : Manager} (h : Filled m m') (h' : Filled m' m'') : Filled m m'' := by
  obtain ⟨hc, ends, locations, hs⟩ := h
  obtain ⟨hc', ends', locations', hs'⟩ := h'
  refine ⟨hc'.trans hc, ends', locations', ?_⟩
  rw [hs', hs]

theorem readEnds_ok {setNames dbNames ends : List BufferManager.Name}
    (h : m.readEnds setNames dbNames ends = .ok m') :
    Filled m m' ∧ m'.state.pageLocations = m.state.pageLocations ∧
      ∀ set, set ∈ m'.sets ↔ set ∈ m.sets ∨ (set.setName, set.dbName) ∈ setNames.zip dbNames := by
  induction setNames generalizing dbNames ends m with
  | nil =>
    rw [Manager.readEnds] at h
    cases h
    exact ⟨.refl _, rfl, by simp⟩
  | cons setName setNames ih =>
    cases dbNames with
    | nil => cases h
    | cons dbName dbNames =>
      cases ends with
      | nil => cases h
      | cons endPos ends =>
        rw [Manager.readEnds] at h
        cases hpos : stoul endPos with
        | none =>
          rw [hpos] at h
          cases h
        | some pos =>
          rw [hpos] at h
          obtain ⟨hf, hl, hs⟩ := ih h
          refine ⟨Filled.trans ⟨rfl, _, _, rfl⟩ hf, hl, fun set => ?_⟩
          rw [hs, List.mem_insert_iff, List.zip_cons_cons, List.mem_cons, Prod.mk.injEq]
          have heq : set = ⟨dbName, setName⟩ ↔ set.setName = setName ∧ set.dbName = dbName := by
            cases set
            simp [and_comm]
          rw [heq]
          tauto

theorem readLocation_ok {b : BufferManager.Name} (h : m.readLocation set b = .ok m') :
    Filled m m' ∧ ∀ key, m'.state.pageLocations key ≠ none ↔
      m.state.pageLocations key ≠ none ∨ key.1 = set ∧ stoul (Manager.field b).1 = some key.2 := by
  unfold Manager.readLocation at h
  dsimp only at h
  split at h
  · next page pos numBytes hpage _ _ =>
    cases h
    refine ⟨⟨rfl, _, _, rfl⟩, fun key => ?_⟩
    rw [hpage, Option.some.injEq]
    dsimp only
    by_cases hkey : key = (set, page)
    · rw [hkey, update_self]
      simp
    · rw [update_of_ne hkey]
      have hne : ¬ (key.1 = set ∧ page = key.2) := fun hx => hkey (Prod.ext hx.1 hx.2.symm)
      tauto
  · cases h

theorem readLocations_ok {mappings : List BufferManager.Name}
    (h : mappings.foldlM (Manager.readLocation set) m = .ok m') :
    Filled m m' ∧ ∀ key, m'.state.pageLocations key ≠ none ↔ m.state.pageLocations key ≠ none ∨
      key.1 = set ∧ ∃ b ∈ mappings, stoul (Manager.field b).1 = some key.2 := by
  induction mappings generalizing m with
  | nil =>
    cases h
    exact ⟨.refl _, fun _ => by simp⟩
  | cons b mappings ih =>
    rw [List.foldlM_cons] at h
    obtain ⟨m₁, h₁, h⟩ := bind_eq_ok.mp h
    obtain ⟨hf₁, hl₁⟩ := readLocation_ok h₁
    obtain ⟨hf, hl⟩ := ih h
    refine ⟨hf₁.trans hf, fun key => ?_⟩
    rw [hl, hl₁]
    simp only [List.mem_cons, exists_eq_or_imp]
    tauto

theorem readMappings_ok {data : FileData} {sets : List PDBSet}
    (h : sets.foldlM (Manager.readMappings data) m = .ok m') :
    Filled m m' ∧ ∀ set q, m'.state.pageLocations (set, q) ≠ none ↔ m.state.pageLocations (set, q) ≠ none ∨
      set ∈ sets ∧ ∃ mappings, data.getStringList (MetaKey.pagesOf set) = .ok mappings ∧
        ∃ b ∈ mappings, stoul (Manager.field b).1 = some q := by
  induction sets generalizing m with
  | nil =>
    cases h
    exact ⟨.refl _, fun _ => by simp⟩
  | cons set₀ sets ih =>
    rw [List.foldlM_cons] at h
    obtain ⟨m₁, h₁, h⟩ := bind_eq_ok.mp h
    unfold Manager.readMappings at h₁
    obtain ⟨mappings, hmappings, h₁⟩ := bind_eq_ok.mp h₁
    obtain ⟨hf₁, hl₁⟩ := readLocations_ok h₁
    obtain ⟨hf, hl⟩ := ih h
    refine ⟨hf₁.trans hf, fun set q => ?_⟩
    rw [hl, hl₁, List.mem_cons]
    dsimp only
    constructor
    · rintro ((hx | ⟨rfl, hb⟩) | ⟨hs, hx⟩)
      · exact Or.inl hx
      · exact Or.inr ⟨Or.inl rfl, mappings, hmappings, hb⟩
      · exact Or.inr ⟨Or.inr hs, hx⟩
    · rintro (hx | ⟨rfl | hs, hx⟩)
      · exact Or.inl (Or.inl hx)
      · obtain ⟨mappings', hm', hb⟩ := hx
        cases hmappings.symm.trans hm'
        exact Or.inl (Or.inr ⟨rfl, hb⟩)
      · exact Or.inr ⟨hs, hx⟩

end Construction

section Reading

variable {cfg : Config} {s s' : State} {k a : ℕ}

structure SameFiles (s s' : State) : Prop where
  page : s'.page = s.page
  nextPage : s'.nextPage = s.nextPage
  allPages : s'.allPages = s.allPages
  fds : s'.fds = s.fds
  files : s'.files = s.files

theorem breakUp_same (h : s.breakUp cfg k = .ok s') : SameFiles s s' := by
  unfold State.breakUp at h
  split at h
  · cases h
  · obtain ⟨minis, -, h⟩ := bind_eq_ok.mp h
    cases h
    exact ⟨rfl, rfl, rfl, rfl, rfl⟩

theorem getEmptyMemory_same (hl : s.lastUsed = []) (h : s.getEmptyMemory cfg k = .ok (a, s')) : SameFiles s s' := by
  unfold State.getEmptyMemory at h
  by_cases hk : cfg.logOfPageSize < k
  · rw [if_pos hk] at h
    cases h
  rw [if_neg hk] at h
  obtain ⟨s₁, h₁, h⟩ := bind_eq_ok.mp h
  have hsame : SameFiles s s₁ := by
    by_cases hm : s.emptyMiniPages k = []
    · rw [if_pos hm, State.createAdditionalMiniPages] at h₁
      obtain ⟨s₀, h₀, h₁⟩ := bind_eq_ok.mp h₁
      by_cases he : s.emptyFullPages = []
      · rw [if_pos he, State.evict, hl] at h₀
        cases h₀
      · rw [if_neg he] at h₀
        cases h₀
        exact breakUp_same h₁
    · rw [if_neg hm] at h₁
      cases h₁
      exact ⟨rfl, rfl, rfl, rfl, rfl⟩
  split at h
  · cases h
  · obtain ⟨unused, -, h⟩ := bind_eq_ok.mp h
    cases h
    exact ⟨hsame.page, hsame.nextPage, hsame.allPages, hsame.fds, hsame.files⟩

theorem loadSetPage_reads (hl : s.lastUsed = []) {set : PDBSet} {q fd : ℕ} {info : PDBPageInfo}
    (hfd : s.fds set = some fd) (h : s.loadSetPage cfg set q info = .ok s') : ∃ p addr,
      s'.allPages (set, q) = some p ∧ (s'.page p).bytes = some addr ∧
        ∀ k < cfg.miniPageSize info.numBytes, s'.memory (addr + k) = s.files fd (info.startPos.toNat + k) := by
  unfold State.loadSetPage at h
  obtain ⟨⟨addr, s₁⟩, h₁, h⟩ := bind_eq_ok.mp h
  have hsame := getEmptyMemory_same (by exact hl) h₁
  dsimp only at h
  rw [registerMiniPage_setPage rfl, ok_bind] at h
  have hfd₁ : s₁.fds set = some fd := by rw [hsame.fds]; exact hfd
  rw [getFileDescriptor_eq (by rw [place_same]; exact hfd₁), ok_bind] at h
  obtain ⟨s₂, h₂, h⟩ := bind_eq_ok.mp h
  unfold State.pread at h₂
  split_ifs at h₂ with hneg
  cases h₂
  cases h
  refine ⟨s.nextPage, addr, ?_, ?_, fun k hk => ?_⟩
  · rw [place_same]
    exact (congrFun hsame.allPages (set, q)).trans (update_self _ _ _)
  · rw [place_page_self]
    simp [State.setPage]
  · have hfiles : s₁.files = s.files := hsame.files
    rw [place_same]
    simp only [State.setPage, fetchBytes]
    rw [if_pos (by omega), hfiles]
    congr 1
    omega

structure Fresh (s : State) : Prop where
  lastUsed : s.lastUsed = []
  allPages : ∀ key, s.allPages key = none
  fds : ∀ set, s.fds set = none

theorem stored_iff {m : Manager} (hm : Fresh m.state) {set : PDBSet} {q : ℕ} :
    Stored m set q ↔ m.state.pageLocations (set, q) ≠ none := by
  constructor
  · rintro ⟨info, hinfo, -⟩
    rw [hinfo]
    simp
  · intro hloc
    obtain ⟨info, hinfo⟩ := Option.ne_none_iff_exists'.mp hloc
    refine ⟨info, hinfo, fun m' hm' => ?_⟩
    obtain ⟨s', hs', hm'⟩ := bind_eq_ok.mp hm'
    cases hm'
    change State.getSetPage m.cfg set q m.state = .ok s' at hs'
    rw [State.getSetPage, State.checkIfOpen, hm.fds, if_neg (by simp)] at hs'
    cases hopen : m.cfg.openFile (m.cfg.fileLoc set) with
    | none =>
      rw [hopen] at hs'
      cases hs'
    | some fd =>
      rw [hopen, ok_bind] at hs'
      dsimp only at hs'
      rw [hm.allPages, hinfo] at hs'
      obtain ⟨p, addr, hp, haddr, hbytes⟩ := loadSetPage_reads (by exact hm.lastUsed) (update_self _ _ _) hs'
      exact ⟨p, addr, fd, hp, haddr, rfl, hbytes⟩

theorem fresh_initialState (cfg : Config) (memory : ℕ → UInt8) (files : ℕ → ℕ → UInt8) :
    Fresh (initialState cfg memory files) := ⟨rfl, fun _ => rfl, fun _ => rfl⟩

theorem Filled.fresh {m m' : Manager} (h : Filled m m') (hm : Fresh m.state) : Fresh m'.state := by
  obtain ⟨-, ends, locations, hs⟩ := h
  rw [hs]
  exact ⟨hm.lastUsed, hm.allPages, hm.fds⟩

end Reading

section Constructor

variable {n : ℕ} {config : NodeConfig} {disk disk' : Disk} {m : Manager} {fd : ℕ}

theorem initializeFrom_located {openFile : BufferManager.Name → Option ℕ} {path : BufferManager.Name} {text : List Char}
    {files : ℕ → ℕ → UInt8} (h : initializeFrom n openFile path text files = .ok m) :
    m.cfg.openFile = openFile ∧ Fresh m.state ∧
      ∀ set q, m.state.pageLocations (set, q) ≠ none ↔ Lists text set q := by
  unfold initializeFrom at h
  dsimp only at h
  split at h
  · obtain ⟨m₀, h₀, h⟩ := bind_eq_ok.mp h
    obtain ⟨setNames, hsets, h⟩ := bind_eq_ok.mp h
    obtain ⟨dbNames, hdbs, h⟩ := bind_eq_ok.mp h
    obtain ⟨ends, -, h⟩ := bind_eq_ok.mp h
    obtain ⟨m₁, h₁, h₂⟩ := bind_eq_ok.mp h
    obtain ⟨cfg, rfl, ⟨-, hopen, -⟩, -⟩ := initializeNew_ok h₀
    obtain ⟨hf₁, hl₁, hs₁⟩ := readEnds_ok h₁
    obtain ⟨hf, hl⟩ := readMappings_ok h₂
    refine ⟨?_, (hf₁.trans hf).fresh (fresh_initialState _ _ _), fun set q => ?_⟩
    · rw [(hf₁.trans hf).1]
      exact hopen
    · have hnone : m₁.state.pageLocations (set, q) = none := by
        rw [hl₁]
        rfl
      have hmem : set ∈ m₁.setsInOrder ↔ (set.setName, set.dbName) ∈ setNames.zip dbNames := by
        rw [Manager.setsInOrder, List.mem_insertionSort, hs₁]
        simp
      rw [hl, hnone, hmem]
      simp only [ne_eq, not_true_eq_false, false_or]
      constructor
      · rintro ⟨hx, hy⟩
        exact ⟨⟨setNames, dbNames, hsets, hdbs, hx⟩, hy⟩
      · rintro ⟨⟨setNames', dbNames', hsets', hdbs', hx⟩, hy⟩
        cases hsets.symm.trans hsets'
        cases hdbs.symm.trans hdbs'
        exact ⟨hx, hy⟩
  · cases h

theorem pdbBufferManagerImpl_ok (h : pdbBufferManagerImpl n config disk = .ok m) :
    m.cfg.openFile = disk.openFile ∧ Fresh m.state ∧ ∀ set q, m.state.pageLocations (set, q) ≠ none ↔
      ∃ fd, disk.find config.existingStorage = some fd ∧ Lists (disk.text fd) set q := by
  unfold pdbBufferManagerImpl at h
  cases hfind : disk.find config.existingStorage with
  | some fd =>
    rw [hfind] at h
    obtain ⟨hopen, hfresh, hloc⟩ := initializeFrom_located h
    refine ⟨hopen, hfresh, fun set q => (hloc set q).trans ?_⟩
    simp
  | none =>
    rw [hfind] at h
    dsimp only at h
    split_ifs at h with hbad
    obtain ⟨cfg, rfl, ⟨-, hopen, -⟩, -⟩ := initializeNew_ok h
    exact ⟨hopen, fresh_initialState _ _ _, fun set q => by simp [initialState]⟩

theorem pdbBufferManagerImpl_again (h : pdbBufferManagerImpl n config disk = .ok m)
    (hopen : disk'.openFile = disk.openFile) (hpresent : ∀ fd, disk.present fd = true → disk'.present fd = true)
    (hfind : disk'.find config.existingStorage = none) : ∃ m', pdbBufferManagerImpl n config disk' = .ok m' := by
  have hfind₀ : disk.find config.existingStorage = none := by
    unfold Disk.find at hfind ⊢
    rw [hopen] at hfind
    cases hfd : disk.openFile config.existingStorage with
    | none => rfl
    | some fd =>
      rw [hfd] at hfind
      rw [Option.filter_eq_none_iff] at hfind ⊢
      exact fun a ha hx => hfind a ha (hpresent a hx)
  unfold pdbBufferManagerImpl at h ⊢
  rw [hfind₀] at h
  rw [hfind]
  dsimp only at h ⊢
  split_ifs at h ⊢ with hbad
  obtain ⟨cfg, -, -, hagain⟩ := initializeNew_ok h
  rw [hopen]
  exact ⟨_, hagain _ _⟩

end Constructor

section Runs

variable {logOfMinPageSize numHandlers : ℕ} {endReadsEmpty : Bool} {config : NodeConfig} {n n' : Node}
  {disk : Disk} {size : ℕ → ℕ}

def Renewable (logOfMinPageSize : ℕ) (config : NodeConfig) (n : Node) : Prop :=
  ∀ disk : Disk, disk.openFile = n.manager.cfg.openFile → (∀ fd, n.present fd = true → disk.present fd = true) →
    disk.find config.existingStorage = none → ∃ m, pdbBufferManagerImpl logOfMinPageSize config disk = .ok m

theorem startNode_ok {w : StorageHandlers.World} (h : startNode logOfMinPageSize config disk w = .ok n) :
    n.storage = w ∧ pdbBufferManagerImpl logOfMinPageSize config disk = .ok n.manager ∧
      ∀ fd, disk.present fd = true → n.present fd = true := by
  obtain ⟨m, hm, h⟩ := bind_eq_ok.mp h
  cases h
  refine ⟨rfl, hm, fun fd hfd => ?_⟩
  dsimp only
  rw [hfd, Bool.true_or]

theorem renewable_start {w : StorageHandlers.World} (h : startNode logOfMinPageSize config disk w = .ok n) :
    Renewable logOfMinPageSize config n := by
  obtain ⟨-, hm, hpresent⟩ := startNode_ok h
  intro disk' hopen hp hfind
  apply pdbBufferManagerImpl_again hm _ _ hfind
  · rw [hopen]
    exact (pdbBufferManagerImpl_ok hm).1
  · exact fun fd hfd => hp fd (hpresent fd hfd)

theorem Renewable.mono (h : Renewable logOfMinPageSize config n) (hc : n'.manager.cfg = n.manager.cfg)
    (hp : ∀ fd, n.present fd = true → n'.present fd = true) : Renewable logOfMinPageSize config n' := by
  intro disk hopen hpresent hfind
  rw [hc] at hopen
  exact h disk hopen (fun fd hfd => hpresent fd (hp fd hfd)) hfind

theorem shutDown_ok (h : n.shutDown size = .ok disk) :
    disk.openFile = n.manager.cfg.openFile ∧ ∀ fd, n.present fd = true → disk.present fd = true := by
  obtain ⟨⟨text, files⟩, -, h⟩ := bind_eq_ok.mp h
  dsimp only at h
  cases hfd : n.manager.cfg.openFile n.manager.metaDataFile with
  | none =>
    rw [hfd] at h
    cases h
    exact ⟨rfl, fun _ hp => hp⟩
  | some fd =>
    rw [hfd] at h
    cases h
    refine ⟨rfl, fun fd' hp => ?_⟩
    dsimp only
    by_cases heq : fd' = fd
    · rw [heq, update_self]
    · rw [update_of_ne heq, hp]

theorem clearSet_cfg {m m' : Manager} {set : PDBSet} (h : m.clearSet set = .ok m') : m'.cfg = m.cfg := by
  obtain ⟨s, -, h⟩ := bind_eq_ok.mp h
  cases h
  rfl

theorem handle_ok {e : StorageHandlers.Event} (h : n.handle endReadsEmpty e = .ok n') :
    n'.manager.cfg = n.manager.cfg ∧ n'.present = n.present := by
  obtain ⟨w, -, h⟩ := bind_eq_ok.mp h
  obtain ⟨m, hm, h⟩ := bind_eq_ok.mp h
  cases h
  refine ⟨?_, rfl⟩
  split at hm
  · exact clearSet_cfg hm
  · cases hm
    rfl

theorem call_ok {op : Op} (h : n.call op = .ok n') :
    n'.manager.cfg = n.manager.cfg ∧ ∀ fd, n.present fd = true → n'.present fd = true := by
  obtain ⟨m, hm, h⟩ := bind_eq_ok.mp h
  obtain ⟨s, -, hm⟩ := bind_eq_ok.mp hm
  cases hm
  cases h
  refine ⟨rfl, fun fd hfd => ?_⟩
  dsimp only
  rw [hfd, Bool.true_or]

theorem renewable_of_reachable {guard : NodeEvent → Node → Prop} {starts : Node → Prop}
    (hstarts : ∀ n, starts n → Starts logOfMinPageSize config n)
    (h : Reachable (nodeStep logOfMinPageSize endReadsEmpty config) guard starts n) :
    Renewable logOfMinPageSize config n := by
  apply h.invariant
  · intro n hn
    obtain ⟨disk, hn⟩ := hstarts n hn
    exact renewable_start hn
  · intro e n n' hn _ he
    cases e with
    | storage e =>
      obtain ⟨hc, hp⟩ := handle_ok he
      exact hn.mono hc fun fd hfd => by rw [hp, hfd]
    | buffer op =>
      obtain ⟨hc, hp⟩ := call_ok he
      exact hn.mono hc hp
    | restart size =>
      obtain ⟨disk, -, he⟩ := bind_eq_ok.mp he
      split at he
      · cases he
      · exact renewable_start he

theorem forall_valid_iff {f : Frontend} {pageStats : PageStats}
    (hlookup : ∀ set, pageStats.lookup set = f.pageStats.lookup set) {P : SetId → ℕ → Prop} :
    (∀ set p q, getValidPage ⟨pageStats, fun _ => none, fun _ => none⟩ set p = some q → P set q) ↔
      ∀ set stats, f.pageStats.lookup set = some stats → ∀ q ≤ stats.lastPage, P set q := by
  have hvalid : ∀ set q, isValid ⟨pageStats, fun _ => none, fun _ => none⟩ set q = pageExists f set q := by
    intro set q
    simp [isValid, pageExists, isPageBeingWrittenTo, isPageFree, hlookup]
  constructor
  · intro h set stats hs q hq
    apply h set q q
    apply getValidPage_self
    rw [hvalid, pageExists, hs]
    simpa using hq
  · intro h set p q hq
    have hx := (getValidPage_eq_some hq).2.1
    rw [hvalid, pageExists] at hx
    cases hs : f.pageStats.lookup set with
    | none =>
      rw [hs] at hx
      cases hx
    | some stats =>
      rw [hs] at hx
      exact h set stats hs q (of_decide_eq_true hx)

theorem Renewable.agrees_iff (h : Renewable logOfMinPageSize config n)
    (hr : (NodeEvent.restart size).Meets numHandlers n) (hd : n.shutDown size = .ok disk) :
    Agrees logOfMinPageSize config n size ↔ Covered logOfMinPageSize config disk n.storage.frontend := by
  obtain ⟨hopen, hpresent⟩ := shutDown_ok hd
  obtain ⟨pageStats, hfront, hlookup⟩ := exists_restart hr.2
  have hrestart : n.restart logOfMinPageSize config size = startNode logOfMinPageSize config disk
      { n.storage with frontend := ⟨pageStats, fun _ => none, fun _ => none⟩, handler := fun _ => .idle } := by
    rw [Node.restart, hd, ok_bind, hfront]
  have hagrees : Agrees logOfMinPageSize config n size ↔ ∃ m, pdbBufferManagerImpl logOfMinPageSize config disk = .ok m ∧
      ∀ set stats, n.storage.frontend.pageStats.lookup set = some stats → ∀ q ≤ stats.lastPage, Stored m (pdbSet set) q := by
    rw [Agrees, hrestart]
    constructor
    · rintro ⟨n', hn', hv⟩
      obtain ⟨hw, hm, -⟩ := startNode_ok hn'
      refine ⟨n'.manager, hm, ?_⟩
      rw [hw] at hv
      exact (forall_valid_iff hlookup).mp hv
    · rintro ⟨m, hm, hv⟩
      rw [startNode, hm]
      exact ⟨_, rfl, (forall_valid_iff hlookup).mpr hv⟩
  rw [hagrees, Covered]
  cases hfind : disk.find config.existingStorage with
  | none =>
    dsimp only
    constructor
    · rintro ⟨m, hm, hs⟩ set
      cases hstats : n.storage.frontend.pageStats.lookup set with
      | none => rfl
      | some stats =>
        -- the first page of the set is valid, and the new manager has no place for it
        obtain ⟨-, hfresh, hloc⟩ := pdbBufferManagerImpl_ok hm
        obtain ⟨fd, hfd, -⟩ := (hloc _ _).mp ((stored_iff hfresh).mp (hs set stats hstats 0 (Nat.zero_le _)))
        cases hfind.symm.trans hfd
    · intro hnone
      obtain ⟨m, hm⟩ := h disk hopen hpresent hfind
      refine ⟨m, hm, fun set stats hs => ?_⟩
      rw [hnone set] at hs
      cases hs
  | some fd =>
    dsimp only
    have hmake : pdbBufferManagerImpl logOfMinPageSize config disk =
        initializeFrom logOfMinPageSize disk.openFile config.existingStorage (disk.text fd) disk.bytes := by
      rw [pdbBufferManagerImpl, hfind]
    have hplace : ∀ m, pdbBufferManagerImpl logOfMinPageSize config disk = .ok m →
        ∀ set q, Stored m set q ↔ Lists (disk.text fd) set q := by
      intro m hm set q
      obtain ⟨-, hfresh, hloc⟩ := pdbBufferManagerImpl_ok hm
      rw [stored_iff hfresh, hloc, hfind]
      simp
    constructor
    · rintro ⟨m, hm, hs⟩
      refine ⟨?_, fun set stats hst q hq => (hplace m hm _ _).mp (hs set stats hst q hq)⟩
      rw [← hmake, hm]
      rfl
    · rintro ⟨hok, hl⟩
      rw [← hmake] at hok
      cases hm : pdbBufferManagerImpl logOfMinPageSize config disk with
      | error e =>
        rw [hm] at hok
        cases hok
      | ok m => exact ⟨m, rfl, fun set stats hst q hq => (hplace m hm _ _).mpr (hl set stats hst q hq)⟩

instance decidableMeets (numHandlers : ℕ) (n : Node) : ∀ e : NodeEvent, Decidable (e.Meets numHandlers n)
  | .storage e => inferInstanceAs (Decidable (∀ h ∈ e.handler?, h < numHandlers))
  | .buffer _ => isTrue trivial
  | .restart _ =>
    decidable_of_iff ((∀ h < numHandlers, n.storage.handler h = .idle) ∧
      n.storage.frontend.pageStats.entries.length < 256 ^ 8 ∧
      (∀ e ∈ n.storage.frontend.pageStats.entries, e.1.1.length < 256 ^ 8 ∧ e.1.2.length < 256 ^ 8) ∧
      ∀ e ∈ n.storage.frontend.pageStats.entries, e.2.size < 256 ^ 8 ∧ e.2.lastPage < 256 ^ 8)
      ⟨fun ⟨hq, h1, h2, h3⟩ => ⟨hq, h1, h2, h3⟩, fun ⟨hq, h1, h2, h3⟩ => ⟨hq, h1, h2, h3⟩⟩

def smallConfig : NodeConfig := ⟨1, 1048576, ['r']⟩

def emptyDisk : Disk := ⟨fun path => some (pathFile path), fun _ => false, fun _ => 0, fun _ _ => 0⟩

def smallSet : SetId := ([100], [115])

def runNode (events : List NodeEvent) : Option Node :=
  (startNode 20 smallConfig emptyDisk StorageHandlers.start).toOption.bind
    (runAll (nodeStep 20 true smallConfig) (fun e n => decide (e.Meets 1 n)) events)

theorem reachable_of_runNode {events : List NodeEvent} (h : runNode events = some n) :
    Reachable (nodeStep 20 true smallConfig) (NodeEvent.Meets 1) (Starts 20 smallConfig) n := by
  obtain ⟨n₀, hn₀, h⟩ := Option.bind_eq_some_iff.mp h
  refine Reachable.of_runAll (fun e n hx => of_decide_eq_true hx) (.start ⟨emptyDisk, ?_⟩) h
  cases hs : startNode 20 smallConfig emptyDisk StorageHandlers.start with
  | error e =>
    rw [hs] at hn₀
    cases hn₀
  | ok n' =>
    rw [hs] at hn₀
    cases hn₀
    rfl

theorem agrees_iff_covered (logOfMinPageSize numHandlers : ℕ) (endReadsEmpty : Bool) (config : NodeConfig) (n : Node)
    (h : Reachable (nodeStep logOfMinPageSize endReadsEmpty config) (NodeEvent.Meets numHandlers)
      (Starts logOfMinPageSize config) n) (size : ℕ → ℕ) (hr : (NodeEvent.restart size).Meets numHandlers n) (disk : Disk)
    (hd : n.shutDown size = .ok disk) :
    Agrees logOfMinPageSize config n size ↔ Covered logOfMinPageSize config disk n.storage.frontend :=
  (renewable_of_reachable (fun _ hn => hn) h).agrees_iff hr hd

theorem agrees_nothing_stored : ∃ n, runNode [.buffer (.getSetPage (pdbSet smallSet) 0), .buffer (.unpin 0)] = some n ∧
    n.manager.state.pageLocations (pdbSet smallSet, 0) ≠ none ∧ Agrees 20 smallConfig n fun _ => 0 := by
  have hrun : (runNode [.buffer (.getSetPage (pdbSet smallSet) 0), .buffer (.unpin 0)]).any (fun n =>
      decide ((NodeEvent.restart fun _ => 0).Meets 1 n ∧ n.manager.state.pageLocations (pdbSet smallSet, 0) ≠ none ∧
        n.storage.frontend.pageStats.entries = []) &&
      (match n.shutDown fun _ => 0 with
        | .ok disk => decide (disk.find smallConfig.existingStorage = none)
        | .error _ => false)) = true := by decide +kernel
  obtain ⟨n, hn, hp⟩ := (Option.any_eq_true _ _).mp hrun
  obtain ⟨hn', hdisk⟩ := Bool.and_eq_true_iff.mp hp
  obtain ⟨hmeets, hloc, hempty⟩ := of_decide_eq_true hn'
  refine ⟨n, hn, hloc, ?_⟩
  cases hd : n.shutDown fun _ => 0 with
  | error e =>
    rw [hd] at hdisk
    cases hdisk
  | ok disk =>
    rw [hd] at hdisk
    apply (agrees_iff_covered 20 1 true smallConfig n (reachable_of_runNode hn) (fun _ => 0) hmeets disk hd).mpr
    rw [Covered, of_decide_eq_true hdisk]
    intro set
    rw [AList.lookup, hempty]
    rfl

theorem not_agrees_dispatch : ∃ n n' m' disk fd p addr,
    Reachable (nodeStep 20 true smallConfig) (NodeEvent.Meets 1) (Starts 20 smallConfig) n ∧
    (NodeEvent.restart fun _ => 0).Meets 1 n ∧ n.shutDown (fun _ => 0) = .ok disk ∧
    disk.openFile (n.manager.cfg.fileLoc (pdbSet smallSet)) = some fd ∧ disk.bytes fd 5 = 7 ∧
    n.restart 20 smallConfig (fun _ => 0) = .ok n' ∧ getValidPage n'.storage.frontend smallSet 0 = some 0 ∧
    n'.manager.state.pageLocations (pdbSet smallSet, 0) = none ∧
    n'.manager.call (.getSetPage (pdbSet smallSet) 0) = .ok m' ∧ m'.state.allPages (pdbSet smallSet, 0) = some p ∧
    (m'.state.page p).bytes = some addr ∧ m'.state.memory (addr + 5) = 0 ∧ ¬ Agrees 20 smallConfig n fun _ => 0 := by
  have hrun : (runNode [.storage (.dispatch 0 smallSet 5), .storage (.takePage 0 0), .storage (.call 0 true),
      .storage (.call 0 true), .storage (.call 0 true), .buffer (.getSetPage (pdbSet smallSet) 0),
      .buffer (.write 0 5 7), .buffer (.unpin 0), .storage (.respond 0 .stored), .storage (.endWriting 0)]).any (fun n =>
      decide ((NodeEvent.restart fun _ => 0).Meets 1 n) &&
      (match n.shutDown fun _ => 0 with
        | .ok disk => (disk.openFile (n.manager.cfg.fileLoc (pdbSet smallSet))).any fun fd => disk.bytes fd 5 = 7
        | .error _ => false) &&
      (match n.restart 20 smallConfig fun _ => 0 with
        | .ok n' => decide (getValidPage n'.storage.frontend smallSet 0 = some 0 ∧
            n'.manager.state.pageLocations (pdbSet smallSet, 0) = none) &&
          (match n'.manager.call (.getSetPage (pdbSet smallSet) 0) with
            | .ok m' => (m'.state.allPages (pdbSet smallSet, 0)).any fun p =>
              (m'.state.page p).bytes.any fun addr => m'.state.memory (addr + 5) = 0
            | .error _ => false)
        | .error _ => false)) = true := by decide +kernel
  obtain ⟨n, hn, hp⟩ := (Option.any_eq_true _ _).mp hrun
  rw [Bool.and_eq_true, Bool.and_eq_true] at hp
  obtain ⟨⟨hmeets, hdisk⟩, hnext⟩ := hp
  split at hdisk
  · next disk hd =>
    split at hnext
    · next n' hn' =>
      obtain ⟨hvalid, hread⟩ := Bool.and_eq_true_iff.mp hnext
      obtain ⟨hvalid, hloc⟩ := of_decide_eq_true hvalid
      split at hread
      · next m' hm' =>
        obtain ⟨fd, hfd, hbyte⟩ := (Option.any_eq_true _ _).mp hdisk
        obtain ⟨p, hpage, hread⟩ := (Option.any_eq_true _ _).mp hread
        obtain ⟨addr, haddr, hzero⟩ := (Option.any_eq_true _ _).mp hread
        refine ⟨n, n', m', disk, fd, p, addr, reachable_of_runNode hn, of_decide_eq_true hmeets, hd, hfd,
          of_decide_eq_true hbyte, hn', hvalid, hloc, hm', hpage, haddr, of_decide_eq_true hzero, ?_⟩
        rintro ⟨n'', hn'', hstored⟩
        cases hn'.symm.trans hn''
        obtain ⟨info, hinfo, -⟩ := hstored smallSet 0 0 hvalid
        cases hloc.symm.trans hinfo
      · cases hread
    · cases hnext
  · cases hdisk

end Runs

end PlinyCompute.NodeRestart
