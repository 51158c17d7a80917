import Mathlib.Data.List.Sort
import PlinyCompute.MetadataFile

namespace PlinyCompute.BufferManager

open Function

def PDBSet.before (a b : PDBSet) : Prop := a.setName < b.setName ∨ (a.setName = b.setName ∧ a.dbName < b.dbName)

instance : DecidableRel PDBSet.before := fun _ _ => inferInstanceAs (Decidable (_ ∨ _))

def pageBefore (a b : PDBSet × ℕ) : Prop := a.1.before b.1 ∨ (¬ b.1.before a.1 ∧ a.2 < b.2)

instance : DecidableRel pageBefore := fun _ _ => inferInstanceAs (Decidable (_ ∨ _))

/-- `sets` and `located` are the keys of `endOfFiles` and of `pageLocations`. -/
structure Manager where
  cfg : Config
  tempFile : Name
  metaDataFile : Name
  sets : List PDBSet
  located : List (PDBSet × ℕ)
  state : State

namespace State

def pageKey (s : State) (p : ℕ) : Option (PDBSet × ℕ) := (s.page p).whichSet.map fun set => (set, (s.page p).pageNum)

def ordered (s : State) (p q : ℕ) : Prop := ∀ a ∈ s.pageKey p, ∀ b ∈ s.pageKey q, ¬ pageBefore b a

instance (s : State) : DecidableRel s.ordered := fun _ _ => inferInstanceAs (Decidable (∀ _ ∈ _, _))

def pagesInOrder (s : State) : List ℕ :=
  ((List.range s.nextPage).filter fun p => (s.pageKey p).bind s.allPages = some p).insertionSort s.ordered

def flush (cfg : Config) (s : State) (p : ℕ) : Except Fault State :=
  if (s.page p).dirty then writeToSet cfg p (s.assignLocation cfg p) else .ok s

def flushAll (cfg : Config) (s : State) : Except Fault State := s.pagesInOrder.foldlM (flush cfg) s

end State

namespace MetaKey

def pageSize : Name := ['p', 'a', 'g', 'e', 'S', 'i', 'z', 'e']

def logOfPageSize : Name := ['l', 'o', 'g', 'O', 'f', 'P', 'a', 'g', 'e', 'S', 'i', 'z', 'e']

def numPages : Name := ['n', 'u', 'm', 'P', 'a', 'g', 'e', 's']

def tempFile : Name := ['t', 'e', 'm', 'p', 'F', 'i', 'l', 'e']

def metaDataFile : Name := ['m', 'e', 't', 'a', 'D', 'a', 't', 'a', 'F', 'i', 'l', 'e']

def storageLoc : Name := ['s', 't', 'o', 'r', 'a', 'g', 'e', 'L', 'o', 'c']

def setNames : Name := ['s', 'e', 't', 'N', 'a', 'm', 'e', 's']

def dbNames : Name := ['d', 'b', 'N', 'a', 'm', 'e', 's']

def endPosForEachFile : Name :=
  ['e', 'n', 'd', 'P', 'o', 's', 'F', 'o', 'r', 'E', 'a', 'c', 'h', 'F', 'i', 'l', 'e']

def pagesOf (set : PDBSet) : Name := set.setName ++ '.' :: set.dbName

end MetaKey

def numberText (n : ℕ) : Name := Nat.toDigits 10 n

def positionText (pos : ℤ) : Name := if pos < 0 then '-' :: numberText (-pos).toNat else numberText pos.toNat

def locationText (i : ℕ) (info : PDBPageInfo) : Name :=
  numberText i ++ '.' :: positionText info.startPos ++ '.' :: numberText info.numBytes

def addToFile (key value : Name) : List (Name × List Name) → List (Name × List Name)
  | [] => [(key, [value])]
  | file :: files => if file.1 = key then (file.1, file.2 ++ [value]) :: files else file :: addToFile key value files

namespace Manager

def setsInOrder (m : Manager) : List PDBSet := m.sets.insertionSort fun a b => ¬ b.before a

def locatedInOrder (m : Manager) : List (PDBSet × ℕ) := m.located.insertionSort fun a b => ¬ pageBefore b a

def allFiles (m : Manager) : List (Name × List Name) :=
  m.locatedInOrder.foldl (fun files key => match m.state.pageLocations key with
    | some info => addToFile (MetaKey.pagesOf key.1) (locationText key.2 info) files
    | none => files) []

def metaData (m : Manager) : FileData := FileData.putAll
  ([(MetaKey.pageSize, numberText m.cfg.pageSize),
    (MetaKey.logOfPageSize, numberText m.cfg.logOfPageSize),
    (MetaKey.numPages, numberText m.cfg.numPages),
    (MetaKey.tempFile, m.tempFile),
    (MetaKey.metaDataFile, m.metaDataFile),
    (MetaKey.storageLoc, m.cfg.storageLoc),
    (MetaKey.setNames, FileData.joined (m.setsInOrder.map (·.setName))),
    (MetaKey.dbNames, FileData.joined (m.setsInOrder.map (·.dbName))),
    (MetaKey.endPosForEachFile,
      FileData.joined (m.setsInOrder.map fun set => numberText (m.state.endOfFiles set)))] ++
    m.allFiles.map fun file => (file.1, FileData.joined file.2))

end Manager

def textBytes (text : List Char) (i : ℕ) : UInt8 := (text[i]?).elim 0 fun c => UInt8.ofNat c.toNat

def writeText (openFile : Name → Option ℕ) (path : Name) (text : List Char) (files : ℕ → ℕ → UInt8) :
    List Char × (ℕ → ℕ → UInt8) :=
  match openFile path with
  | none => ([], files)
  | some fd => (text, update files fd (textBytes text))

def classesLoop (pageSize : ℕ) : ℕ → ℕ → ℕ → Except Fault (ℕ × ℕ)
  | 0, _, _ => .error .diverges
  | fuel + 1, curSize, classes =>
    if curSize ≤ pageSize then classesLoop pageSize fuel (curSize * 2 % 2 ^ 64) (classes + 1)
    else .ok (curSize, classes)

/-- A file descriptor for the temp file, the size classes and empty pages. `logOfPageSize` starts at minus one;
a page below `MIN_PAGE_SIZE` has no class. -/
def initializeNew (logOfMinPageSize : ℕ) (openFile : Name → Option ℕ) (tempFile : Name) (pageSize numPages : ℕ)
    (metaFile storageLoc : Name) (files : ℕ → ℕ → UInt8) : Except Fault Manager := do
  match openFile tempFile with
  | none => .error .exit
  | some fd =>
    let (curSize, classes) ← classesLoop pageSize 65 (2 ^ logOfMinPageSize) 0
    if curSize ≠ pageSize * 2 % 2 ^ 64 ∨ classes = 0 then .error .exit
    else
      let cfg : Config := ⟨logOfMinPageSize, classes - 1, numPages, storageLoc, fd, openFile⟩
      .ok ⟨cfg, tempFile, metaFile, [], [], initialState cfg (fun _ => 0) files⟩

namespace Manager

/-- The index into a shorter list of names is undefined, a position that is no number an exception. -/
def readEnds : List Name → List Name → List Name → Manager → Except Fault Manager
  | [], _, _, m => .ok m
  | setName :: setNames, dbName :: dbNames, endPos :: ends, m =>
    match stoul endPos with
    | none => .error .exit
    | some pos =>
      let set : PDBSet := ⟨dbName, setName⟩
      readEnds setNames dbNames ends { m with
        sets := m.sets.insert set
        state := { m.state with endOfFiles := update m.state.endOfFiles set pos } }
  | _ :: _, _, _, _ => .error .undefined

def field (s : Name) : Name × Name := (s.takeWhile (· ≠ '.'), (s.dropWhile (· ≠ '.')).drop 1)

def readLocation (set : PDBSet) (m : Manager) (b : Name) : Except Fault Manager :=
  let pageNum := field b
  let startPos := field pageNum.2
  let len := field startPos.2
  match stoul pageNum.1, stoul startPos.1, stoul len.1 with
  | some page, some pos, some numBytes =>
    .ok { m with
      located := m.located.insert (set, page)
      state := { m.state with
        pageLocations := update m.state.pageLocations (set, page) (some ⟨pos, numBytes⟩) } }
  | _, _, _ => .error .exit

def readMappings (myMetaFile : FileData) (m : Manager) (set : PDBSet) : Except Fault Manager := do
  let mappings ← myMetaFile.getStringList (MetaKey.pagesOf set)
  mappings.foldlM (readLocation set) m

end Manager

/-- A number that is not in the file leaves a variable without a value. -/
def initializeFrom (logOfMinPageSize : ℕ) (openFile : Name → Option ℕ) (metaDataFile : Name) (text : List Char)
    (files : ℕ → ℕ → UInt8) : Except Fault Manager := do
  let myMetaFile := FileData.read text
  match myMetaFile.getUnsignedLong MetaKey.pageSize, myMetaFile.getUnsignedLong MetaKey.numPages with
  | some pageSize, some numPages =>
    let tempFile := (myMetaFile.getString MetaKey.tempFile).getD []
    let storageLoc := (myMetaFile.getString MetaKey.storageLoc).getD []
    let m ← initializeNew logOfMinPageSize openFile tempFile pageSize numPages metaDataFile storageLoc files
    let setNames ← myMetaFile.getStringList MetaKey.setNames
    let dbNames ← myMetaFile.getStringList MetaKey.dbNames
    let endPos ← myMetaFile.getStringList MetaKey.endPosForEachFile
    let m ← m.readEnds setNames dbNames endPos
    m.setsInOrder.foldlM (Manager.readMappings myMetaFile) m
  | _, _ => .error .undefined

namespace Manager

def writtenBack (m : Manager) (s : State) : Manager :=
  { m with
    located := (s.pagesInOrder.filterMap s.pageKey).filter (fun key => s.pageLocations key ≠ none) ∪ m.located
    state := s }

def destroy (m : Manager) : Except Fault (List Char × (ℕ → ℕ → UInt8)) := do
  let s ← m.state.flushAll m.cfg
  .ok (writeText m.cfg.openFile m.metaDataFile (m.writtenBack s).metaData.save s.files)

def restart (m : Manager) : Except Fault Manager := do
  let (text, files) ← m.destroy
  initializeFrom m.cfg.logOfMinPageSize m.cfg.openFile m.metaDataFile text files

end Manager

def Op.opened : Op → Option PDBSet
  | .getSetPage set _ => some set
  | _ => none

def Op.unpinned : Op → Option ℕ
  | .unpin p | .drop p => some p
  | _ => none

def insertKey {α : Type} [BEq α] (key : Option α) (keys : List α) : List α := key.elim keys keys.insert

/-- `endOfFiles` gets an entry where a file is opened, `pageLocations` where a page gets its place. -/
def Manager.call (m : Manager) (op : Op) : Except Fault Manager := do
  let s ← step m.cfg op m.state
  .ok { m with
    sets := insertKey op.opened m.sets
    located := insertKey ((op.unpinned.bind m.state.pageKey).filter fun key => s.pageLocations key ≠ none) m.located
    state := s }

inductive ManagerOp
  | call (op : Op) | restart
  deriving DecidableEq, Repr

def managerStep (op : ManagerOp) (m : Manager) : Except Fault Manager :=
  match op with
  | .call op => m.call op
  | .restart => m.restart

end PlinyCompute.BufferManager
