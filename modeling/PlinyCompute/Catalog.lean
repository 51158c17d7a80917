import PlinyCompute.LogicalPlan

namespace PlinyCompute.Catalog

open LogicalPlan (Text)
open Function (update update_of_ne update_self)

inductive PDBCatalogSetContainerType
  | noContainer
  | vectorContainer
  | mapContainer
  deriving DecidableEq

def identifierOf (dbName setName : Text) : Text := dbName ++ ':' :: setName

structure PDBCatalogSet where
  setIdentifier : Text
  name : Text
  database : Text
  setSize : UInt64
  type : Text
  containerType : PDBCatalogSetContainerType
  identified : setIdentifier = identifierOf database name

def PDBCatalogSet.of (database name type : Text) (setSize : UInt64) (containerType : PDBCatalogSetContainerType) :
    PDBCatalogSet where
  setIdentifier := identifierOf database name
  name := name
  database := database
  setSize := setSize
  type := type
  containerType := containerType
  identified := rfl

structure PDBCatalog where
  databases : Text → Option ℤ
  sets : Text → Option PDBCatalogSet
  keyed : ∀ identifier row, sets identifier = some row → row.setIdentifier = identifier

namespace PDBCatalog

def empty : PDBCatalog := ⟨fun _ => none, fun _ => none, fun _ _ h => nomatch h⟩

def replace (c : PDBCatalog) (row : PDBCatalogSet) : PDBCatalog where
  databases := c.databases
  sets := update c.sets row.setIdentifier (some row)
  keyed := by
    intro identifier held h
    by_cases hi : identifier = row.setIdentifier
    · rw [hi, update_self] at h
      cases h
      exact hi.symm
    · rw [update_of_ne hi] at h
      exact c.keyed identifier held h

def keep (c : PDBCatalog) (p : PDBCatalogSet → Bool) : PDBCatalog where
  databases := c.databases
  sets := fun identifier => (c.sets identifier).filter p
  keyed := fun identifier row h => c.keyed identifier row (Option.filter_eq_some_iff.mp h).1

def databaseExists (c : PDBCatalog) (name : Text) : Bool := (c.databases name).isSome

def getSet (c : PDBCatalog) (dbName setName : Text) : Option PDBCatalogSet := c.sets (identifierOf dbName setName)

def setExists (c : PDBCatalog) (dbName setName : Text) : Bool := (c.sets (identifierOf dbName setName)).isSome

/-- Every call returns the catalog and the text of the error, if there is one. -/
def registerSet (c : PDBCatalog) (set : PDBCatalogSet) : PDBCatalog × Option Text :=
  -- the check puts the name of the database in front of an identifier that has it already
  if c.setExists set.database set.setIdentifier then (c, some "The set is already registered\n".toList)
  else (c.replace set, none)

def registerDatabase (c : PDBCatalog) (name : Text) (now : ℤ) : PDBCatalog × Option Text :=
  if c.databaseExists name then (c, some "The database is already registered\n".toList)
  else ({ c with databases := update c.databases name (some now) }, none)

def missing (dbName setName : Text) : Text :=
  "The set with the name (".toList ++ dbName ++ ",".toList ++ setName ++ ") does not exist\n".toList

def updateSetContainer (c : PDBCatalog) (dbName setName : Text) (type : PDBCatalogSetContainerType) :
    PDBCatalog × Option Text :=
  match c.getSet dbName setName with
  | none => (c, some (missing dbName setName))
  | some set => (c.replace { set with containerType := type }, none)

def incrementSetSize (c : PDBCatalog) (dbName setName : Text) (increment : UInt64) : PDBCatalog × Option Text :=
  match c.getSet dbName setName with
  | none => (c, some (missing dbName setName))
  | some set => (c.replace { set with setSize := set.setSize + increment }, none)

def removeDatabase (c : PDBCatalog) (dbName : Text) : PDBCatalog × Option Text :=
  match c.databases dbName with
  | none => (c, some "Database to be removed does not exist!".toList)
  | some _ =>
    let c := c.keep fun set => set.database ≠ dbName
    ({ c with databases := update c.databases dbName none }, none)

def removeSet (c : PDBCatalog) (dbName setName : Text) : PDBCatalog × Option Text :=
  match c.getSet dbName setName with
  | none => (c, some ("Set with the identifier ".toList ++ identifierOf dbName setName ++ " does not exist\n".toList))
  | some _ => (c.keep fun set => set.setIdentifier ≠ identifierOf dbName setName, none)

end PDBCatalog

inductive Call
  | registerDatabase (name : Text) (now : ℤ)
  | registerSet (set : PDBCatalogSet)
  | updateSetContainer (dbName setName : Text) (type : PDBCatalogSetContainerType)
  | incrementSetSize (dbName setName : Text) (increment : UInt64)
  | removeDatabase (dbName : Text)
  | removeSet (dbName setName : Text)

def PDBCatalog.perform (c : PDBCatalog) : Call → PDBCatalog × Option Text
  | .registerDatabase name now => c.registerDatabase name now
  | .registerSet set => c.registerSet set
  | .updateSetContainer dbName setName type => c.updateSetContainer dbName setName type
  | .incrementSetSize dbName setName increment => c.incrementSetSize dbName setName increment
  | .removeDatabase dbName => c.removeDatabase dbName
  | .removeSet dbName setName => c.removeSet dbName setName

structure Entry where
  type : Text
  size : UInt64
  containerType : PDBCatalogSetContainerType
  deriving DecidableEq

def PDBCatalogSet.entry (set : PDBCatalogSet) : Entry := ⟨set.type, set.setSize, set.containerType⟩

@[ext] structure CatalogMap where
  databases : Text → Option ℤ
  entries : Text × Text → Option Entry

namespace CatalogMap

def change (m : CatalogMap) (pair : Text × Text) (f : Entry → Option Entry) : CatalogMap × Bool :=
  match m.entries pair with
  | none => (m, false)
  | some e => ({ m with entries := update m.entries pair (f e) }, true)

def perform (m : CatalogMap) : Call → CatalogMap × Bool
  | .registerDatabase name now =>
    if (m.databases name).isSome then (m, false)
    else ({ m with databases := update m.databases name (some now) }, true)
  | .registerSet set =>
    if (m.entries (set.database, set.name)).isSome then (m, false)
    else ({ m with entries := update m.entries (set.database, set.name) (some set.entry) }, true)
  | .updateSetContainer dbName setName type => m.change (dbName, setName) fun e => some { e with containerType := type }
  | .incrementSetSize dbName setName increment =>
    m.change (dbName, setName) fun e => some { e with size := e.size + increment }
  | .removeDatabase dbName =>
    match m.databases dbName with
    | none => (m, false)
    | some _ => (⟨update m.databases dbName none,
        fun pair => if pair.1 = dbName then none else m.entries pair⟩, true)
  | .removeSet dbName setName => m.change (dbName, setName) fun _ => none

end CatalogMap

def PDBCatalog.map (c : PDBCatalog) : CatalogMap where
  databases := c.databases
  entries := fun pair => ((c.sets (identifierOf pair.1 pair.2)).filter fun set =>
    set.database = pair.1 ∧ set.name = pair.2).map PDBCatalogSet.entry

def Follows : List Call → PDBCatalog → CatalogMap → Prop
  | [], _, _ => True
  | call :: calls, c, m =>
    ((c.perform call).1.map = (m.perform call).1 ∧ (c.perform call).2.isNone = (m.perform call).2) ∧
      Follows calls (c.perform call).1 (m.perform call).1

def Sole (c : PDBCatalog) (dbName setName : Text) : Prop :=
  ∀ row, c.sets (identifierOf dbName setName) = some row → row.database = dbName ∧ row.name = setName

def Unambiguous (c : PDBCatalog) : Call → Prop
  | .registerDatabase _ _ => True
  | .registerSet set => Sole c set.database set.name ∧
      -- the check finds a row if and only if there is one to find
      ((c.sets (identifierOf set.database set.setIdentifier)).isSome ↔ (c.sets set.setIdentifier).isSome)
  | .updateSetContainer dbName setName _ => Sole c dbName setName
  | .incrementSetSize dbName setName _ => Sole c dbName setName
  | .removeDatabase _ => True
  | .removeSet dbName setName => Sole c dbName setName

def UnambiguousRun : List Call → PDBCatalog → Prop
  | [], _ => True
  | call :: calls, c => Unambiguous c call ∧ UnambiguousRun calls (c.perform call).1

theorem entries_of_some {c : PDBCatalog} {dbName setName : Text} {row : PDBCatalogSet}
    (h : c.sets (identifierOf dbName setName) = some row) (hpair : row.database = dbName ∧ row.name = setName) :
    c.map.entries (dbName, setName) = some row.entry := by
  simp [PDBCatalog.map, h, hpair, Option.filter]

theorem entries_of_other {c : PDBCatalog} {dbName setName : Text} {row : PDBCatalogSet}
    (h : c.sets (identifierOf dbName setName) = some row) (hpair : ¬(row.database = dbName ∧ row.name = setName)) :
    c.map.entries (dbName, setName) = none := by
  simp only [PDBCatalog.map, h, Option.filter, decide_eq_true_eq, if_neg hpair, Option.map_none]

theorem entries_of_none {c : PDBCatalog} {dbName setName : Text} (h : c.sets (identifierOf dbName setName) = none) :
    c.map.entries (dbName, setName) = none := by
  simp [PDBCatalog.map, h]

theorem Sole.of_none {c : PDBCatalog} {dbName setName : Text} (h : c.sets (identifierOf dbName setName) = none) :
    Sole c dbName setName := by
  intro row hrow
  rw [h] at hrow
  cases hrow

theorem Sole.isSome_iff {c : PDBCatalog} {dbName setName : Text} (h : Sole c dbName setName) :
    (c.map.entries (dbName, setName)).isSome ↔ (c.sets (identifierOf dbName setName)).isSome := by
  cases hrow : c.sets (identifierOf dbName setName) with
  | none => simp [entries_of_none hrow]
  | some row => simp [entries_of_some hrow (h row hrow)]

theorem entries_of_clash {c : PDBCatalog} {dbName setName : Text} (h : Sole c dbName setName) {pair : Text × Text}
    (hid : identifierOf pair.1 pair.2 = identifierOf dbName setName) (hpair : pair ≠ (dbName, setName)) :
    c.map.entries pair = none := by
  cases hrow : c.sets (identifierOf pair.1 pair.2) with
  | none => exact entries_of_none hrow
  | some row =>
    apply entries_of_other hrow
    rintro ⟨hd, hn⟩
    obtain ⟨hd', hn'⟩ := h row (hid ▸ hrow)
    exact hpair (Prod.ext (hd.symm.trans hd') (hn.symm.trans hn'))

theorem map_replace {c : PDBCatalog} {row : PDBCatalogSet} (h : Sole c row.database row.name) :
    (c.replace row).map =
      { c.map with entries := update c.map.entries (row.database, row.name) (some row.entry) } := by
  apply CatalogMap.ext
  · rfl
  funext pair
  dsimp only
  by_cases hpair : pair = (row.database, row.name)
  · subst hpair
    rw [update_self]
    refine entries_of_some ?_ ⟨rfl, rfl⟩
    rw [← row.identified]
    exact update_self ..
  rw [update_of_ne hpair]
  by_cases hid : identifierOf pair.1 pair.2 = identifierOf row.database row.name
  · rw [entries_of_clash h hid hpair]
    have hheld : (c.replace row).sets (identifierOf pair.1 pair.2) = some row := by
      rw [hid, ← row.identified]
      exact update_self ..
    apply entries_of_other hheld
    rintro ⟨hd, hn⟩
    exact hpair (Prod.ext hd.symm hn.symm)
  · have hsame : (c.replace row).sets (identifierOf pair.1 pair.2) = c.sets (identifierOf pair.1 pair.2) := by
      apply update_of_ne
      rw [row.identified]
      exact hid
    simp only [PDBCatalog.map, hsame]

theorem map_remove {c : PDBCatalog} {dbName setName : Text} (h : Sole c dbName setName) :
    (c.keep fun set => set.setIdentifier ≠ identifierOf dbName setName).map =
      { c.map with entries := update c.map.entries (dbName, setName) none } := by
  apply CatalogMap.ext
  · rfl
  funext pair
  dsimp only
  by_cases hid : identifierOf pair.1 pair.2 = identifierOf dbName setName
  · have hnone : (c.keep fun set => set.setIdentifier ≠ identifierOf dbName setName).map.entries pair = none := by
      apply entries_of_none
      refine Option.filter_eq_none_iff.mpr fun row hrow => ?_
      simp [c.keyed _ _ hrow, hid]
    rw [hnone]
    by_cases hpair : pair = (dbName, setName)
    · rw [hpair, update_self]
    · rw [update_of_ne hpair, entries_of_clash h hid hpair]
  · have hsame : (c.keep fun set => set.setIdentifier ≠ identifierOf dbName setName).sets
        (identifierOf pair.1 pair.2) = c.sets (identifierOf pair.1 pair.2) := by
      change (c.sets (identifierOf pair.1 pair.2)).filter _ = _
      cases hrow : c.sets (identifierOf pair.1 pair.2) with
      | none => rfl
      | some row =>
        apply Option.filter_some_pos
        simp [c.keyed _ _ hrow, hid]
    have hpair : pair ≠ (dbName, setName) := by
      rintro rfl
      exact hid rfl
    rw [update_of_ne hpair]
    simp only [PDBCatalog.map, hsame]

theorem map_removeDatabase (c : PDBCatalog) (dbName : Text) (pair : Text × Text) :
    (c.keep fun set => set.database ≠ dbName).map.entries pair =
      if pair.1 = dbName then none else c.map.entries pair := by
  simp only [PDBCatalog.map, PDBCatalog.keep, Option.filter_filter]
  cases c.sets (identifierOf pair.1 pair.2) with
  | none => simp
  | some row => grind

theorem agrees_change {c : PDBCatalog} {dbName setName error : Text} {next : PDBCatalogSet → PDBCatalog}
    {f : Entry → Option Entry} (hnext : ∀ row, c.sets (identifierOf dbName setName) = some row →
      row.database = dbName ∧ row.name = setName → Sole c dbName setName →
      (next row).map = { c.map with entries := update c.map.entries (dbName, setName) (f row.entry) })
    {out : PDBCatalog × Option Text} (hout : out = match c.getSet dbName setName with
      | none => (c, some error)
      | some set => (next set, none)) :
    (out.1.map = (c.map.change (dbName, setName) f).1 ∧ out.2.isNone = (c.map.change (dbName, setName) f).2) ↔
      Sole c dbName setName := by
  subst hout
  unfold PDBCatalog.getSet CatalogMap.change
  cases hrow : c.sets (identifierOf dbName setName) with
  | none => simp [entries_of_none hrow, Sole.of_none hrow]
  | some row =>
    by_cases hpair : row.database = dbName ∧ row.name = setName
    · have hsole : Sole c dbName setName := by
        intro held hheld
        rw [hrow] at hheld
        cases hheld
        exact hpair
      simp [entries_of_some hrow hpair, hnext row hrow hpair hsole, hsole]
    · have hsole : ¬Sole c dbName setName := fun h => hpair (h row hrow)
      simp [entries_of_other hrow hpair, hsole]

theorem unambiguous_registerSet {c : PDBCatalog} {set : PDBCatalogSet} : Unambiguous c (.registerSet set) ↔
    Sole c set.database set.name ∧
      (c.setExists set.database set.setIdentifier ↔ (c.sets (identifierOf set.database set.name)).isSome) := by
  rw [← set.identified]
  exact Iff.rfl

theorem sole_of_map_replace {c : PDBCatalog} {set : PDBCatalogSet} (h : (c.replace set).map =
    { c.map with entries := update c.map.entries (set.database, set.name) (some set.entry) }) :
    Sole c set.database set.name := by
  intro row hrow
  by_contra hpair
  have hid : identifierOf row.database row.name = identifierOf set.database set.name :=
    row.identified.symm.trans (c.keyed _ _ hrow)
  have hheld : c.map.entries (row.database, row.name) = some row.entry := by
    apply entries_of_some _ ⟨rfl, rfl⟩
    rw [hid]
    exact hrow
  have hlost : (c.replace set).map.entries (row.database, row.name) = none := by
    have hset : (c.replace set).sets (identifierOf row.database row.name) = some set := by
      rw [hid, ← set.identified]
      exact update_self ..
    apply entries_of_other hset
    rintro ⟨hd, hn⟩
    exact hpair ⟨hd.symm, hn.symm⟩
  have hne : (row.database, row.name) ≠ (set.database, set.name) := by
    intro he
    exact hpair (Prod.mk.inj he)
  rw [h] at hlost
  dsimp only at hlost
  rw [update_of_ne hne, hheld] at hlost
  cases hlost

theorem agrees_registerSet (c : PDBCatalog) (set : PDBCatalogSet) :
    ((c.registerSet set).1.map = (c.map.perform (.registerSet set)).1 ∧
      (c.registerSet set).2.isNone = (c.map.perform (.registerSet set)).2) ↔ Unambiguous c (.registerSet set) := by
  rw [unambiguous_registerSet]
  unfold PDBCatalog.registerSet CatalogMap.perform
  dsimp only
  by_cases hfound : c.setExists set.database set.setIdentifier = true
  · rw [if_pos hfound]
    simp only [hfound, true_iff]
    by_cases hentry : (c.map.entries (set.database, set.name)).isSome = true
    · rw [if_pos hentry]
      refine iff_of_true ⟨rfl, rfl⟩ ?_
      have hsole : Sole c set.database set.name := by
        intro row hrow
        by_contra hpair
        rw [entries_of_other hrow hpair] at hentry
        cases hentry
      exact ⟨hsole, hsole.isSome_iff.mp hentry⟩
    · rw [if_neg hentry]
      refine iff_of_false (fun h => nomatch h.2) ?_
      rintro ⟨hsole, hrow⟩
      exact hentry (hsole.isSome_iff.mpr hrow)
  · rw [if_neg hfound]
    simp only [hfound, Bool.false_eq_true, false_iff]
    by_cases hentry : (c.map.entries (set.database, set.name)).isSome = true
    · rw [if_pos hentry]
      refine iff_of_false (fun h => nomatch h.2) ?_
      rintro ⟨hsole, hrow⟩
      exact hrow (hsole.isSome_iff.mp hentry)
    · rw [if_neg hentry]
      constructor
      · rintro ⟨hmap, -⟩
        have hsole := sole_of_map_replace hmap
        exact ⟨hsole, fun hrow => hentry (hsole.isSome_iff.mpr hrow)⟩
      · rintro ⟨hsole, -⟩
        exact ⟨map_replace hsole, rfl⟩

theorem agrees_registerDatabase (c : PDBCatalog) (name : Text) (now : ℤ) :
    (c.registerDatabase name now).1.map = (c.map.perform (.registerDatabase name now)).1 ∧
      (c.registerDatabase name now).2.isNone = (c.map.perform (.registerDatabase name now)).2 := by
  unfold PDBCatalog.registerDatabase
  by_cases hdb : c.databaseExists name = true
  · have hsome : (c.map.databases name).isSome = true := hdb
    simp only [CatalogMap.perform, if_pos hdb, if_pos hsome]
    exact ⟨trivial, rfl⟩
  · have hsome : ¬(c.map.databases name).isSome = true := hdb
    simp only [CatalogMap.perform, if_neg hdb, if_neg hsome]
    exact ⟨rfl, rfl⟩

theorem agrees_removeDatabase (c : PDBCatalog) (dbName : Text) :
    (c.removeDatabase dbName).1.map = (c.map.perform (.removeDatabase dbName)).1 ∧
      (c.removeDatabase dbName).2.isNone = (c.map.perform (.removeDatabase dbName)).2 := by
  have hsame : c.map.databases dbName = c.databases dbName := rfl
  unfold PDBCatalog.removeDatabase CatalogMap.perform
  cases hdb : c.databases dbName with
  | none =>
    rw [hdb] at hsame
    simp only [hsame]
    exact ⟨trivial, rfl⟩
  | some _ =>
    rw [hdb] at hsame
    simp only [hsame]
    refine ⟨CatalogMap.ext rfl ?_, rfl⟩
    funext pair
    exact map_removeDatabase c dbName pair

theorem agrees_iff (c : PDBCatalog) (call : Call) :
    ((c.perform call).1.map = (c.map.perform call).1 ∧ (c.perform call).2.isNone = (c.map.perform call).2) ↔
      Unambiguous c call := by
  cases call with
  | registerDatabase name now => exact iff_of_true (agrees_registerDatabase c name now) trivial
  | registerSet set => exact agrees_registerSet c set
  | updateSetContainer dbName setName type =>
    refine agrees_change (fun row _ hpair hsole => ?_) rfl
    obtain ⟨rfl, rfl⟩ := hpair
    exact map_replace hsole
  | incrementSetSize dbName setName increment =>
    refine agrees_change (fun row _ hpair hsole => ?_) rfl
    obtain ⟨rfl, rfl⟩ := hpair
    exact map_replace hsole
  | removeDatabase dbName => exact iff_of_true (agrees_removeDatabase c dbName) trivial
  | removeSet dbName setName => exact agrees_change (fun row _ _ hsole => map_remove hsole) rfl

theorem follows_iff (calls : List Call) (c : PDBCatalog) : Follows calls c c.map ↔ UnambiguousRun calls c := by
  induction calls generalizing c with
  | nil => rfl
  | cons call calls ih =>
    unfold Follows UnambiguousRun
    rw [← agrees_iff]
    refine and_congr_right fun h => ?_
    rw [← h.1]
    exact ih _

def registeredTwice : List Call :=
  let set := PDBCatalogSet.of "db".toList "s".toList "T".toList 0 .noContainer
  [.registerDatabase "db".toList 0, .registerSet set, .incrementSetSize "db".toList "s".toList 5, .registerSet set]

theorem not_follows_registeredTwice : ¬Follows registeredTwice .empty PDBCatalog.empty.map := by
  rintro ⟨-, -, -, ⟨hmap, -⟩, -⟩
  have hsize := congrArg (fun m => (m.entries ("db".toList, "s".toList)).map Entry.size) hmap
  revert hsize
  decide +kernel

end PlinyCompute.Catalog
