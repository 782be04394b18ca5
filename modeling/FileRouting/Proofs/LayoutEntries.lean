import FileRouting.Disk.Editing
import FileRouting.Proofs.Building
import FileRouting.Proofs.NearestLayout
import FileRouting.Proofs.RouteOrder
import Mathlib

/-! # What layouts are

The scan for route files keeps only files, but the scans for layouts go by the paths of entries
alone.  A layout is therefore the first accepted entry of the nearest directory that has one, be it
a file, a directory or a symbolic link (`Upward.nearestIn_eq_some_iff`), and it is a file as long as
nothing else on the way up is called like a layout (`Table.ofDirectory_layoutEntry`).

Nothing is assumed about symbolic links on the way up or about names that are no text.  Each
directory is looked up by its own path, and a path is that of one entry only, however the directory
is written (`Tree.HasEntry.unique`). -/

namespace FileRouting

namespace Disk

/-! ## Above absolute paths -/

namespace Path

theorem isAbsolute_ofPieces (body : List Bytes) : (ofPieces [] body).isAbsolute := by
  cases body with
  | nil => rfl
  | cons piece body => simp [ofPieces, isAbsolute]

theorem isAbsolute_parent? {p q : Path} (hp : p.isAbsolute) (h : p.parent? = some q) :
    q.isAbsolute := by
  obtain ⟨body, _, _, hpieces⟩ := exists_body hp
  rw [parent?, hpieces] at h
  simp only [if_true] at h
  split at h
  · rw [← Option.some.inj h]
    exact isAbsolute_ofPieces _
  · cases h

theorem isAbsolute_of_mem_ancestors {p q : Path} (hp : p.isAbsolute) (h : q ∈ p.ancestors) :
    q.isAbsolute := by
  fun_induction ancestors p with
  | case1 p hnone => cases h
  | case2 p parent hparent _ ih =>
      have habsolute := isAbsolute_parent? hp hparent
      rcases List.mem_cons.1 h with rfl | h
      · exact habsolute
      · exact ih habsolute h

end Path

/-! ## Paths of entries -/

namespace Tree

variable {t : Tree} {p : Path} {e : Entry}

/-- Whether a path is that of the given entry: its directory can be looked up and has the entry by
the name behind it. -/
def HasEntry (t : Tree) (p : Path) (e : Entry) : Prop :=
  ∃ directory location name, directory.isAbsolute ∧ t.findDirectory directory = .ok location ∧
    t.entry? (name :: location) = some e ∧ p = directory.child name

/-- A path is that of one entry only. -/
theorem HasEntry.unique {e' : Entry} (h : t.HasEntry p e) (h' : t.HasEntry p e') : e = e' := by
  obtain ⟨directory, location, name, habsolute, hleads, hentry, rfl⟩ := h
  obtain ⟨directory', location', name', habsolute', hleads', hentry', hpath⟩ := h'
  -- two directories of one entry may be written differently, but they have the same parts
  have hparts : directory.parts ++ [name] = directory'.parts ++ [name'] := by
    rw [← Path.parts_child habsolute (of_entry?_cons hentry).1, hpath,
      Path.parts_child habsolute' (of_entry?_cons hentry').1]
  obtain ⟨hdirectory, hname⟩ := List.append_inj' hparts rfl
  cases hname
  have hlocation :=
    findDirectory_of_parts hdirectory (findDirectory_eq_ok_iff.1 hleads').1 hleads
  cases hleads'.symm.trans hlocation
  exact Option.some.inj (hentry.symm.trans hentry')

/-- The path of an entry leads to it, if it can be looked up at all. -/
theorem locate_child {directory : Path} {location : Location} {name : Bytes}
    (habsolute : directory.isAbsolute) (hleads : t.findDirectory directory = .ok location)
    (hentry : t.entry? (name :: location) = some e)
    (hfault : (directory.child name).fault? = none) :
    t.locate false (directory.child name) = .ok (.found (name :: location)) := by
  rw [locate, hfault]
  exact follow_child habsolute hentry (fun hfollow => absurd hfollow Bool.false_ne_true) hleads

end Tree

end Disk

/-! ## Scans -/

namespace Upward

open Disk (Path Tree Location Entry)

variable {t : Tree} {accepts : Text → Bool} {stop p directory : Path} {directories : List Path}

/-- Whether a directory has no accepted entry. -/
def IsBare (t : Tree) (accepts : Text → Bool) (directory : Path) : Prop :=
  ∃ location, t.findDirectory directory = .ok location ∧
    ∀ name, (t.entry? (name :: location)).isSome → accepts (directory.child name).display = false

/-- The accepted entry of a directory that comes first in the order of the names. -/
structure IsFirst (t : Tree) (accepts : Text → Bool) (directory : Path) (location : Location)
    (name : Bytes) (e : Entry) : Prop where
  leads : t.findDirectory directory = .ok location
  entry : t.entry? (name :: location) = some e
  accepted : accepts (directory.child name).display
  least : ∀ other, (t.entry? (other :: location)).isSome →
    accepts (directory.child other).display → (compare name other).isLE

/-- A directory that a scan of the given directories comes to if it does not end with one of the
nearer ones: these are below the bound. -/
def OnWay (stop : Path) (directories nearer : List Path) (directory : Path) : Prop :=
  ∃ farther, directories = nearer ++ directory :: farther ∧
    ∀ passed ∈ nearer, passed.StartsWith stop ∧ ¬ passed.Same stop

/-- The entry that a scan of the given directories ends with: the first accepted one of the nearest
directory that has any. -/
structure Chooses (t : Tree) (accepts : Text → Bool) (stop : Path) (directories : List Path)
    (directory : Path) (location : Location) (name : Bytes) (e : Entry) : Prop where
  nearest : ∃ nearer, OnWay stop directories nearer directory ∧
    ∀ passed ∈ nearer, IsBare t accepts passed
  first : IsFirst t accepts directory location name e

/-! ### One directory -/

/-- Whether entries are the accepted ones of a directory, by ascending names. -/
def IsLevel (t : Tree) (accepts : Text → Bool) (directory : Path) (entries : List Path) : Prop :=
  ∃ (location : Location) (names : List Bytes), t.findDirectory directory = .ok location ∧
    entries = names.map directory.child ∧ (names.Pairwise fun a b => compare a b = .lt) ∧
    ∀ name, name ∈ names ↔
      (t.entry? (name :: location)).isSome ∧ accepts (directory.child name).display

theorem isLevel_of_acceptedEntries {entries : List Path}
    (h : acceptedEntries t accepts directory = .ok entries) :
    IsLevel t accepts directory entries := by
  cases hleads : t.findDirectory directory with
  | ok location =>
      obtain ⟨names, hentries, hsorted, hmem⟩ := acceptedEntries_of_findDirectory accepts hleads
      exact ⟨location, names, hleads, Except.ok.inj (h.symm.trans hentries), hsorted, hmem⟩
  | error e =>
      rw [acceptedEntries, Tree.list, hleads] at h
      cases h

theorem isBare_of_acceptedEntries (h : acceptedEntries t accepts directory = .ok []) :
    IsBare t accepts directory := by
  obtain ⟨location, names, hleads, hnil, _, hmem⟩ := isLevel_of_acceptedEntries h
  refine ⟨location, hleads, fun name hentry => ?_⟩
  rw [← Bool.not_eq_true]
  intro haccepted
  have hname := (hmem name).2 ⟨hentry, haccepted⟩
  rw [List.map_eq_nil_iff.1 hnil.symm] at hname
  cases hname

theorem isFirst_of_acceptedEntries {others : List Path}
    (h : acceptedEntries t accepts directory = .ok (p :: others)) :
    ∃ location name e, IsFirst t accepts directory location name e ∧ p = directory.child name := by
  obtain ⟨location, names, hleads, hcons, hsorted, hmem⟩ := isLevel_of_acceptedEntries h
  obtain ⟨name, behind, rfl, rfl, _⟩ := List.map_eq_cons_iff.1 hcons.symm
  obtain ⟨hentry, haccepted⟩ := (hmem name).1 (List.mem_cons_self ..)
  obtain ⟨e, hentry⟩ := Option.isSome_iff_exists.1 hentry
  refine ⟨location, name, e, ⟨hleads, hentry, haccepted, ?_⟩, rfl⟩
  intro other hother haccepted'
  exact isLE_of_pairwise_cons (hsorted.imp Ordering.isLE_of_eq_lt)
    ((hmem other).2 ⟨hother, haccepted'⟩)

theorem IsBare.acceptedEntries (h : IsBare t accepts directory) :
    acceptedEntries t accepts directory = .ok [] := by
  obtain ⟨location, hleads, hnone⟩ := h
  obtain ⟨names, hentries, _, hmem⟩ := acceptedEntries_of_findDirectory accepts hleads
  have hnil : names = [] := by
    rw [List.eq_nil_iff_forall_not_mem]
    intro name hname
    obtain ⟨hentry, haccepted⟩ := (hmem name).1 hname
    rw [hnone name hentry] at haccepted
    cases haccepted
  rw [hentries, hnil]
  rfl

theorem IsFirst.acceptedEntries {location : Location} {name : Bytes} {e : Entry}
    (h : IsFirst t accepts directory location name e) :
    ∃ others, acceptedEntries t accepts directory = .ok (directory.child name :: others) := by
  obtain ⟨names, hentries, hsorted, hmem⟩ := acceptedEntries_of_findDirectory accepts h.leads
  have hname : name ∈ names := (hmem name).2 ⟨by simp [h.entry], h.accepted⟩
  obtain ⟨first, behind, rfl⟩ := List.exists_cons_of_ne_nil (List.ne_nil_of_mem hname)
  have hfirst : first = name := by
    -- each of the two comes before the other or is it
    obtain ⟨hentry, haccepted⟩ := (hmem first).1 (List.mem_cons_self ..)
    exact Std.LawfulEqCmp.eq_of_compare (Std.OrientedCmp.isLE_antisymm
      (isLE_of_pairwise_cons (hsorted.imp Ordering.isLE_of_eq_lt) hname)
      (h.least first hentry haccepted))
  rw [hentries, hfirst]
  exact ⟨behind.map directory.child, rfl⟩

/-! ### All directories -/

theorem isBoundary_eq_false_iff :
    isBoundary stop directory = false ↔ directory.StartsWith stop ∧ ¬ directory.Same stop := by
  simp [isBoundary, and_comm]

theorem IsFirst.chooses {location : Location} {name : Bytes} {e : Entry}
    (h : IsFirst t accepts directory location name e) (stop : Path) (above : List Path) :
    Chooses t accepts stop (directory :: above) directory location name e where
  nearest := ⟨[], ⟨above, rfl, by simp⟩, by simp⟩
  first := h

/-- A bare directory below the bound leaves the choice to those above. -/
theorem Chooses.cons {location : Location} {name : Bytes} {e : Entry}
    (h : Chooses t accepts stop directories directory location name e) {passed : Path}
    (hinside : passed.StartsWith stop ∧ ¬ passed.Same stop) (hbare : IsBare t accepts passed) :
    Chooses t accepts stop (passed :: directories) directory location name e where
  nearest := by
    obtain ⟨nearer, ⟨farther, rfl, hway⟩, hnone⟩ := h.nearest
    exact ⟨passed :: nearer, ⟨farther, rfl, List.forall_mem_cons.2 ⟨hinside, hway⟩⟩,
      List.forall_mem_cons.2 ⟨hbare, hnone⟩⟩
  first := h.first

theorem nearestIn_eq_some_iff :
    nearestIn t accepts stop directories = .ok (some p) ↔ ∃ directory location name e,
      Chooses t accepts stop directories directory location name e ∧ p = directory.child name := by
  constructor
  · intro h
    induction directories with
    | nil => cases h
    | cons passed above ih =>
        rw [nearestIn] at h
        split at h
        · cases h
        · next entry others hentries =>
          cases h
          obtain ⟨location, name, e, hfirst, hpath⟩ := isFirst_of_acceptedEntries hentries
          exact ⟨passed, location, name, e, hfirst.chooses stop above, hpath⟩
        · next hentries =>
          split at h
          · cases h
          next hinside =>
          rw [Bool.not_eq_true, isBoundary_eq_false_iff] at hinside
          obtain ⟨directory, location, name, e, hchosen, hpath⟩ := ih h
          exact ⟨directory, location, name, e,
            hchosen.cons hinside (isBare_of_acceptedEntries hentries), hpath⟩
  · rintro ⟨directory, location, name, e, hchosen, rfl⟩
    obtain ⟨⟨nearer, ⟨farther, rfl, hway⟩, hbare⟩, hfirst⟩ := hchosen
    induction nearer with
    | nil =>
        obtain ⟨others, hentries⟩ := hfirst.acceptedEntries
        rw [List.nil_append, nearestIn, hentries]
    | cons passed nearer ih =>
        rw [List.forall_mem_cons] at hway hbare
        rw [List.cons_append, nearestIn, hbare.1.acceptedEntries]
        simp only [isBoundary_eq_false_iff.2 hway.1, Bool.false_eq_true, if_false]
        exact ih hbare.2 hway.2

theorem Chooses.isAbsolute {location : Location} {name : Bytes} {e : Entry}
    (h : Chooses t accepts stop directories directory location name e)
    (habsolute : ∀ directory ∈ directories, directory.isAbsolute) : directory.isAbsolute := by
  obtain ⟨_, ⟨farther, rfl, _⟩, _⟩ := h.nearest
  exact habsolute directory (by simp)

/-- What a scan ends with is the path of the entry that it chooses. -/
theorem Chooses.hasEntry {location : Location} {name : Bytes} {e : Entry}
    (h : Chooses t accepts stop directories directory location name e)
    (habsolute : ∀ directory ∈ directories, directory.isAbsolute) :
    t.HasEntry (directory.child name) e :=
  ⟨directory, location, name, h.isAbsolute habsolute, h.first.leads, h.first.entry, rfl⟩

end Upward

/-! ## Tables -/

theorem RouteFile.eq_of_ofNames? {o : Options} {base : Disk.Path} {names : List Bytes}
    {file : RouteFile} (h : ofNames? o base names = some file) :
    file = ⟨base.descend names, directoryText names.tail⟩ := by
  unfold ofNames? at h
  split at h
  · cases h
  split at h
  · split at h
    · cases h
      rfl
    · cases h
  · cases h

namespace Table

open Disk (Path Tree)

variable {host : Host} {engine : Engine} {t : Tree} {o : Options} {base : Path}

theorem layout_of_routeOf {file : RouteFile} {r : Route}
    (h : routeOf engine t o base file = .ok r) {p : Path} : r.layout = some p ↔
      o.discoverLayouts = true ∧ Upward.nearest t o.isLayoutPath r.source base = .ok (some p) := by
  by_cases hlayouts : o.discoverLayouts = true
  · obtain ⟨hsource, _, hsearch⟩ := routeOf_eq_ok h
    rw [hsource, hsearch hlayouts]
    simp [hlayouts]
  · have hnone : r.layout = none := by
      unfold routeOf at h
      split at h
      · cases h
      next made hmade =>
      rw [if_neg hlayouts] at h
      cases h
      exact (Route.ofLogicalPath_eq_ok_iff.1 hmade).2.2.1
    simp [hnone, hlayouts]

/-- The routes of a table are those of files that the walk has found. -/
theorem exists_walk_of_ofDirectory {table : Table} (h : ofDirectory host t o base = .ok table) :
    ∃ root top files, base.absolute? host.current = some root ∧
      t.walk o.followLinks root top = .ok files ∧ ∀ r ∈ table.routes, ∃ names ∈ files,
        routeOf host.engine t o root ⟨root.descend names, RouteFile.directoryText names.tail⟩ =
          .ok r := by
  obtain ⟨root, top, files, routes, built, hroot, _, hwalk, _, hroutes, hof, rfl⟩ :=
    ofDirectory_eq_ok_iff.1 h
  refine ⟨root, top, files, hroot, hwalk, ?_⟩
  intro r hr
  obtain ⟨file, hfile, hmade⟩ := exists_of_mem_right (mapM_eq_ok_iff.1 hroutes)
    ((routes_perm_of_ofRoutes hof).mem_iff.1 hr)
  obtain ⟨names, hmem, hnames⟩ := List.mem_filterMap.1 hfile
  rw [RouteFile.eq_of_ofNames? hnames] at hmade
  exact ⟨names, hmem, hmade⟩

/-- The routes of a table are those of route files, which have absolute paths. -/
theorem exists_routeOf_of_ofDirectory {table : Table} (h : ofDirectory host t o base = .ok table) :
    ∃ root, base.absolute? host.current = some root ∧ ∀ r ∈ table.routes, r.source.isAbsolute ∧
      ∃ file, routeOf host.engine t o root file = .ok r := by
  obtain ⟨root, _, _, hroot, _, hroutes⟩ := exists_walk_of_ofDirectory h
  refine ⟨root, hroot, ?_⟩
  intro r hr
  obtain ⟨names, _, hmade⟩ := hroutes r hr
  rw [(routeOf_eq_ok hmade).1]
  exact ⟨Path.isAbsolute_descend (Path.isAbsolute_of_absolute? hroot) names, _, hmade⟩

/-- The layout of a route is the first entry with the path of a layout in the nearest directory that
has one.  It is a file if this entry is, and only then; in particular it is a file if no directory
and no symbolic link on the way up has the path of a layout. -/
theorem ofDirectory_layoutEntry (host : Host) (t : Tree) (o : Options) (base : Path) (table : Table)
    (h : ofDirectory host t o base = .ok table) :
    ∃ root, base.absolute? host.current = some root ∧ ∀ r ∈ table.routes,
      (∀ p, r.layout = some p ↔ o.discoverLayouts = true ∧ ∃ directory location name e,
        Upward.Chooses t o.isLayoutPath root r.source.ancestors directory location name e ∧
          p = directory.child name) ∧
      (∀ directory location name e,
        Upward.Chooses t o.isLayoutPath root r.source.ancestors directory location name e →
          (t.HasEntry (directory.child name) .file ↔ e = .file) ∧
          ((directory.child name).fault? = none →
            t.locate false (directory.child name) = .ok (.found (name :: location)))) ∧
      ((∀ nearer directory location name e,
          Upward.OnWay root r.source.ancestors nearer directory →
            t.findDirectory directory = .ok location → t.entry? (name :: location) = some e →
              o.isLayoutPath (directory.child name).display → e = .file) →
        ∀ p, r.layout = some p → t.HasEntry p .file) := by
  obtain ⟨root, hroot, hroutes⟩ := exists_routeOf_of_ofDirectory h
  refine ⟨root, hroot, ?_⟩
  intro r hr
  obtain ⟨hsource, file, hmade⟩ := hroutes r hr
  have habove : ∀ directory ∈ r.source.ancestors, directory.isAbsolute :=
    fun _ => Path.isAbsolute_of_mem_ancestors hsource
  have hlayout : ∀ p, r.layout = some p ↔ o.discoverLayouts = true ∧ ∃ directory location name e,
      Upward.Chooses t o.isLayoutPath root r.source.ancestors directory location name e ∧
        p = directory.child name := by
    intro p
    rw [layout_of_routeOf hmade, Upward.nearest, Upward.nearestIn_eq_some_iff]
  refine ⟨hlayout, ?_, ?_⟩
  · intro directory location name e hchosen
    have hentry := hchosen.hasEntry habove
    refine ⟨⟨fun hfile => hentry.unique hfile, fun hfile => hfile ▸ hentry⟩, ?_⟩
    exact Tree.locate_child (hchosen.isAbsolute habove) hchosen.first.leads hchosen.first.entry
  · intro hfiles p hp
    obtain ⟨_, directory, location, name, e, hchosen, rfl⟩ := (hlayout p).1 hp
    obtain ⟨nearer, hway, _⟩ := hchosen.nearest
    have hfile := hfiles nearer directory location name e hway hchosen.first.leads
      hchosen.first.entry hchosen.first.accepted
    exact hfile ▸ hchosen.hasEntry habove

/-- A tree with a layout for the index, and a directory that is called like one for the guide. -/
def guideTree : Tree :=
  ["/app/index.ts", "/app/layout.tsx", "/app/guide/index.ts",
    "/app/guide/layout.js/notes.txt"].foldl (fun t path => t.addFile (.ofText path.toList)) .empty

def guideIndex : Route where
  source := .ofText "/app/index.ts".toList
  canonical := "/".toList
  segments := [.literal []]
  layout := some (.ofText "/app/layout.tsx".toList)
  segments_eq := by decide +kernel

def guideRoute : Route where
  source := .ofText "/app/guide/index.ts".toList
  canonical := "/guide".toList
  segments := [.literal "guide".toList]
  layout := some (.ofText "/app/guide/layout.js".toList)
  segments_eq := by decide +kernel

def guideTable : Table := ⟨[guideIndex, guideRoute], some (.ofText "/app".toList)⟩

theorem ofDirectory_layoutEntry_guide :
    ofDirectory .plain guideTree {} (.ofText "/app".toList) = .ok guideTable ∧
    (∃ directory location name, Upward.Chooses guideTree (Options.isLayoutPath {})
      (.ofText "/app".toList) guideIndex.source.ancestors directory location name .file ∧
        .ofText "/app/layout.tsx".toList = directory.child name) ∧
    ∃ directory location name e, Upward.Chooses guideTree (Options.isLayoutPath {})
      (.ofText "/app".toList) guideRoute.source.ancestors directory location name e ∧
        .ofText "/app/guide/layout.js".toList = directory.child name ∧ e ≠ .file := by
  have hroot : Path.absolute? (.ofText "/app".toList) Host.plain.current =
      some (.ofText "/app".toList) := by decide +kernel
  have hbuilt : ofDirectory .plain guideTree {} (.ofText "/app".toList) = .ok guideTable := by cbv
  have hindex : guideTree.HasEntry (.ofText "/app/layout.tsx".toList) .file :=
    ⟨.ofText "/app".toList, [Utf8.encode "app".toList], Utf8.encode "layout.tsx".toList,
      by decide +kernel, by decide +kernel, by decide +kernel, by decide +kernel⟩
  have hguide : guideTree.HasEntry (.ofText "/app/guide/layout.js".toList) .directory :=
    ⟨.ofText "/app/guide".toList, ["guide", "app"].map (Utf8.encode ·.toList),
      Utf8.encode "layout.js".toList, by decide +kernel, by decide +kernel, by decide +kernel,
      by decide +kernel⟩
  obtain ⟨root, hbase, hroutes⟩ := ofDirectory_layoutEntry .plain guideTree {} _ _ hbuilt
  obtain rfl := Option.some.inj (hroot.symm.trans hbase)
  refine ⟨hbuilt, ?_, ?_⟩
  · obtain ⟨hlayout, hfile, _⟩ := hroutes guideIndex (by simp [guideTable])
    obtain ⟨_, directory, location, name, e, hchosen, hpath⟩ := (hlayout _).1 rfl
    rw [hpath] at hindex
    cases (hfile _ _ _ _ hchosen).1.1 hindex
    exact ⟨directory, location, name, hchosen, hpath⟩
  · obtain ⟨hlayout, hfile, _⟩ := hroutes guideRoute (by simp [guideTable])
    obtain ⟨_, directory, location, name, e, hchosen, hpath⟩ := (hlayout _).1 rfl
    refine ⟨directory, location, name, e, hchosen, hpath, ?_⟩
    intro he
    rw [hpath] at hguide
    cases hguide.unique ((hfile _ _ _ _ hchosen).1.2 he)

/-- A tree in which the directory of a route is called like a layout. -/
def literalTree : Tree := Tree.empty.addFile (.ofText "/app/layout.js/index.ts".toList)

def literalRoute : Route where
  source := .ofText "/app/layout.js/index.ts".toList
  canonical := "/layout.js".toList
  segments := [.literal "layout.js".toList]
  layout := some (.ofText "/app/layout.js".toList)
  segments_eq := by decide +kernel

/-- With the usual options, a directory becomes the layout of a route. -/
theorem ofDirectory_layoutEntry_directory :
    Options.validate {} = .ok () ∧
    ofDirectory .plain literalTree {} (.ofText "/app".toList) =
      .ok ⟨[literalRoute], some (.ofText "/app".toList)⟩ ∧
    literalRoute.layout = some (.ofText "/app/layout.js".toList) ∧
    literalTree.findDirectory (.ofText "/app/layout.js".toList) =
      .ok (["layout.js", "app"].map (Utf8.encode ·.toList)) ∧
    ¬ literalTree.HasEntry (.ofText "/app/layout.js".toList) .file := by
  have hentry : literalTree.HasEntry (.ofText "/app/layout.js".toList) .directory :=
    ⟨.ofText "/app".toList, [Utf8.encode "app".toList], Utf8.encode "layout.js".toList,
      by decide +kernel, by decide +kernel, by decide +kernel, by decide +kernel⟩
  refine ⟨by decide, by cbv, rfl, by decide +kernel, ?_⟩
  intro hfile
  cases hfile.unique hentry

end Table

end FileRouting
