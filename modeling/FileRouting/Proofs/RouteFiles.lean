import FileRouting.Disk.Editing
import FileRouting.Proofs.Building
import FileRouting.Proofs.Independence
import FileRouting.Proofs.NearestLayout
import FileRouting.Proofs.PatternLength
import FileRouting.Proofs.RoundTrip

/-! # Tables of directories

A table that is built from a directory has one route for each site of a route file below, and no
other (`Table.ofDirectory_routeFiles`).  What can go wrong is said by the sites alone: a directory
that does not read as a segment, a name that is given twice, or a conflict if conflicts are refused.
The search for layouts does not add to that, because it stays within the directories of the walk.
Nor does an engine that tells layouts and takes patterns up to `longestPattern`. -/

namespace FileRouting

namespace Site

variable {s : Site} {engine : Engine} {t : Disk.Tree} {o : Options} {root : Disk.Path}
  {top : Disk.Location}

theorem ofLogicalPath_routeFile_iff (root : Disk.Path) {e : Disk.Entry}
    (h : t.entry? (s.names ++ top) = some e) {segments : List Segment} :
    Segment.ofLogicalPath (LogicalPath.ofDirectory (s.routeFile root).directory) = .ok segments ↔
      s.Reads segments := by
  have hpart := isPart_of_entry?_eq_some h
  rw [routeFile, ofDirectory_eq_canonical hpart, ofLogicalPath_canonical_iff hpart]

/-- The route of a site. -/
theorem of_routeOf {e : Disk.Entry} (h : t.entry? (s.names ++ top) = some e) {r : Route}
    (hr : Table.routeOf engine t o root (s.routeFile root) = .ok r) :
    r.source = s.source root ∧ r.canonical = s.canonical ∧ s.Reads r.segments := by
  obtain ⟨hsource, hcanonical, _⟩ := Table.routeOf_eq_ok hr
  refine ⟨hsource, ?_, ?_⟩
  · rw [hcanonical, routeFile, ofDirectory_eq_canonical (isPart_of_entry?_eq_some h)]
  · rw [← ofLogicalPath_routeFile_iff root h, ← hcanonical]
    exact r.segments_eq

theorem exists_routeOf_iff (hengine : engine.TakesUpTo longestPattern)
    (hwalk : t.Walkable root top) {e : Disk.Entry} (h : t.entry? (s.names ++ top) = some e) :
    (∃ r, Table.routeOf engine t o root (s.routeFile root) = .ok r) ↔
      ∃ segments, s.Reads segments := by
  obtain ⟨hfile, hdirectory⟩ := Disk.Tree.of_entry?_cons h
  rw [Table.exists_routeOf_iff (Upward.exists_nearest hwalk o.isLayoutPath hfile hdirectory)]
  simp only [ofLogicalPath_routeFile_iff root h]
  exact ⟨fun ⟨segments, hreads, _⟩ => ⟨segments, hreads⟩,
    fun ⟨segments, hreads⟩ => ⟨segments, hreads, hreads.takes hwalk h hengine⟩⟩

theorem Reads.unique {e : Disk.Entry} (h : t.entry? (s.names ++ top) = some e)
    {as bs : List Segment} (ha : s.Reads as) (hb : s.Reads bs) : as = bs := by
  have hpart := isPart_of_entry?_eq_some h
  rw [← ofLogicalPath_canonical_iff hpart] at ha hb
  rw [ha] at hb
  exact Except.ok.inj hb

theorem conflicts_comm {a b : Site} : a.Conflicts b ↔ b.Conflicts a := by
  constructor
  · rintro ⟨as, bs, ha, hb, hconflict⟩
    exact ⟨bs, as, hb, ha, Segment.conflict_comm as bs ▸ hconflict⟩
  · rintro ⟨bs, as, hb, ha, hconflict⟩
    exact ⟨as, bs, ha, hb, Segment.conflict_comm bs as ▸ hconflict⟩

end Site

namespace Table

variable {host : Host} {engine : Engine} {t : Disk.Tree} {o : Options} {base root : Disk.Path}
  {top : Disk.Location}

theorem exists_ofRoutes_iff {b : TieBreak} {routes : List Route} :
    (∃ table, ofRoutes b routes = .ok table) ↔
      (b = .reject → routes.Pairwise fun a b => a.conflicts b = false) := by
  cases b with
  | canonicalPath => exact ⟨fun _ => nofun, fun _ => ⟨_, rfl⟩⟩
  | enumeration => exact ⟨fun _ => nofun, fun _ => ⟨_, rfl⟩⟩
  | reject =>
      rw [ofRoutes_reject_eq_ok_iff]
      exact ⟨fun h _ => h, fun h => h rfl⟩

/-- The sites of all route files below a base directory, from which its table is built. -/
theorem exists_sites_of_ofDirectory (hutf8 : t.HasUtf8Names) (hlinks : o.followLinks = false)
    (hroot : base.absolute? host.current = some root) (htop : t.findDirectory root = .ok top)
    {files : List (List Bytes)} (hwalk : t.walk o.followLinks root top = .ok files)
    (hlayouts : o.discoverLayouts → host.engine.Takes o.layoutSource) :
    ∃ sites : List Site, sites.Nodup ∧ (∀ s, s ∈ sites ↔ s.IsRouteFile t o top) ∧
      ∀ table, ofDirectory host t o base = .ok table ↔ ∃ routes built,
        List.Forall₂ (fun s r => routeOf host.engine t o root (s.routeFile root) = .ok r) sites
            routes ∧
          ofRoutes o.tieBreak routes = .ok built ∧ table = { built with base := some root } := by
  have hdirectory := (Disk.Tree.findDirectory_eq_ok_iff.1 htop).2.2
  obtain ⟨sites, hnodup, hmem, hsites⟩ :=
    Site.exists_sites_of_scan o hdirectory hutf8 (hlinks ▸ hwalk)
  refine ⟨sites, hnodup, hmem, ?_⟩
  intro table
  have hmapM : ∀ routes,
      (files.filterMap (RouteFile.ofNames? o root)).mapM (routeOf host.engine t o root) =
        .ok routes ↔
      List.Forall₂ (fun s r => routeOf host.engine t o root (s.routeFile root) = .ok r) sites
        routes := by
    intro routes
    rw [hsites, mapM_eq_ok_iff, List.forall₂_map_left_iff]
  rw [ofDirectory_eq_ok_iff]
  constructor
  · rintro ⟨root', top', files', routes, built, hroot', htop', hwalk', _, hroutes, hbuilt, htable⟩
    obtain rfl := Option.some.inj (hroot.symm.trans hroot')
    obtain rfl := Except.ok.inj (htop.symm.trans htop')
    obtain rfl := Except.ok.inj (hwalk.symm.trans hwalk')
    exact ⟨routes, built, (hmapM routes).1 hroutes, hbuilt, htable⟩
  · rintro ⟨routes, built, hroutes, hbuilt, htable⟩
    exact ⟨root, top, files, routes, built, hroot, htop, hwalk, hlayouts, (hmapM routes).2 hroutes,
      hbuilt, htable⟩

/-- The sites have routes if they all read as routes, because the search for layouts cannot fail. -/
theorem exists_routes_iff (hengine : engine.TakesUpTo longestPattern) (hwalk : t.Walkable root top)
    {sites : List Site} (hentry : ∀ s ∈ sites, t.entry? (s.names ++ top) = some .file) :
    (∃ routes, List.Forall₂ (fun s r => routeOf engine t o root (s.routeFile root) = .ok r) sites
      routes) ↔ ∀ s ∈ sites, ∃ segments, s.Reads segments := by
  simp only [← mapM_eq_ok_iff]
  rw [exists_mapM_eq_ok_iff]
  exact forall₂_congr fun s hs => Site.exists_routeOf_iff hengine hwalk (hentry s hs)

section Routes

variable {sites : List Site} {routes : List Route}
  (hentry : ∀ s ∈ sites, t.entry? (s.names ++ top) = some .file)
  (hroutes : List.Forall₂ (fun s r => routeOf engine t o root (s.routeFile root) = .ok r) sites
    routes)

include hentry hroutes

theorem forall₂_of_routeOf :
    List.Forall₂ (fun (s : Site) (r : Route) => t.entry? (s.names ++ top) = some .file ∧
      r.source = s.source root ∧ r.canonical = s.canonical ∧ s.Reads r.segments) sites routes := by
  refine ((List.forall₂_and_left ..).2 ⟨hentry, hroutes⟩).imp ?_
  rintro s r ⟨hs, hr⟩
  exact ⟨hs, Site.of_routeOf hs hr⟩

/-- Routes have conflicts where their sites have. -/
theorem pairwise_conflicts_iff (hnodup : sites.Nodup) :
    (routes.Pairwise fun a b => a.conflicts b = false) ↔
      ∀ a ∈ sites, ∀ b ∈ sites, a ≠ b → ¬ a.Conflicts b := by
  have hpairwise : (sites.Pairwise fun a b => ¬ a.Conflicts b) ↔
      routes.Pairwise fun a b => a.conflicts b = false := by
    apply pairwise_iff_of_forall₂ (forall₂_of_routeOf hentry hroutes)
    rintro a b r w ⟨ha, _, _, hr⟩ ⟨hb, _, _, hw⟩
    rw [Route.conflicts_eq, ← Bool.not_eq_true]
    apply not_congr
    constructor
    · rintro ⟨as, bs, has, hbs, hconflict⟩
      rwa [hr.unique ha has, hw.unique hb hbs]
    · exact fun hconflict => ⟨r.segments, w.segments, hr, hw, hconflict⟩
  have hsymm : Std.Symm fun a b : Site => ¬ a.Conflicts b :=
    ⟨fun _ _ hab hba => hab (Site.conflicts_comm.1 hba)⟩
  rw [← hpairwise]
  constructor
  · intro h a ha b hb hne
    exact h.forall ha hb hne
  · exact fun h => hnodup.pairwise_of_forall_ne h

/-- No two routes have the same file. -/
theorem pairwise_source (hroot : root.isAbsolute) (hnodup : sites.Nodup) :
    routes.Pairwise fun a b => ¬ a.source.Same b.source := by
  refine (pairwise_iff_of_forall₂ (forall₂_of_routeOf hentry hroutes) ?_).1 hnodup
  rintro a b r w ⟨ha, hr, _⟩ ⟨hb, hw, _⟩
  rw [hr, hw]
  apply not_congr
  constructor
  · rintro rfl
    rfl
  · exact Site.eq_of_source_same hroot (Disk.Tree.isName_of_entry?_eq_some ha)
      (Disk.Tree.isName_of_entry?_eq_some hb)

theorem map_source_canonical_eq :
    routes.map (fun r => (r.source, r.canonical)) =
      sites.map fun s => (s.source root, s.canonical) := by
  rw [eq_comm, ← List.forall₂_eq_eq_eq, List.forall₂_map_left_iff, List.forall₂_map_right_iff]
  refine (forall₂_of_routeOf hentry hroutes).imp ?_
  rintro s r ⟨_, hsource, hcanonical, _⟩
  rw [hsource, hcanonical]

end Routes

/-- Building from a directory loses and invents nothing.  It succeeds exactly when the site of every
route file reads as a route and, if conflicts are refused, no two of them conflict; and the table
then has one route for each of these sites, with its file and its logical path, and no other.  The
engine is trusted with short patterns and, if layouts are looked for, with telling them. -/
theorem ofDirectory_routeFiles (host : Host) (hengine : host.engine.TakesUpTo longestPattern)
    (t : Disk.Tree) (hutf8 : t.HasUtf8Names) (o : Options) (hlinks : o.followLinks = false)
    (hlayouts : o.discoverLayouts → host.engine.Takes o.layoutSource) (base root : Disk.Path)
    (hroot : base.absolute? host.current = some root) (top : Disk.Location)
    (htop : t.findDirectory root = .ok top) (files : List (List Bytes))
    (hwalk : t.walk o.followLinks root top = .ok files) :
    ((∃ table, ofDirectory host t o base = .ok table) ↔
      (∀ s : Site, s.IsRouteFile t o top → ∃ segments, s.Reads segments) ∧
      (o.tieBreak = .reject → ∀ a b : Site, a.IsRouteFile t o top → b.IsRouteFile t o top →
        a ≠ b → ¬ a.Conflicts b)) ∧
    ∀ table, ofDirectory host t o base = .ok table → table.base = some root ∧
      (table.routes.Pairwise fun a b => ¬ a.source.Same b.source) ∧
      ∃ sites : List Site, sites.Nodup ∧ (∀ s, s ∈ sites ↔ s.IsRouteFile t o top) ∧
        (table.routes.map fun r => (r.source, r.canonical)).Perm
          (sites.map fun s => (s.source root, s.canonical)) := by
  have hwalkable := Disk.Tree.walkable_of_walk (Disk.Path.isAbsolute_of_absolute? hroot) htop
    (hlinks ▸ hwalk)
  obtain ⟨sites, hnodup, hmem, hbuilt⟩ :=
    exists_sites_of_ofDirectory hutf8 hlinks hroot htop hwalk hlayouts
  have hentry : ∀ s ∈ sites, t.entry? (s.names ++ top) = some .file := fun s hs =>
    ((hmem s).1 hs).1
  have hreads := exists_routes_iff (o := o) hengine hwalkable hentry
  constructor
  · constructor
    · rintro ⟨table, htable⟩
      obtain ⟨routes, built, hroutes, hof, _⟩ := (hbuilt table).1 htable
      constructor
      · intro s hs
        exact hreads.1 ⟨routes, hroutes⟩ s ((hmem s).2 hs)
      · intro hreject a b ha hb
        have hpairwise := exists_ofRoutes_iff.1 ⟨built, hof⟩ hreject
        exact (pairwise_conflicts_iff hentry hroutes hnodup).1 hpairwise a ((hmem a).2 ha) b
          ((hmem b).2 hb)
    · rintro ⟨hall, hconflicts⟩
      obtain ⟨routes, hroutes⟩ := hreads.2 fun s hs => hall s ((hmem s).1 hs)
      have hpairwise : o.tieBreak = .reject → routes.Pairwise fun a b => a.conflicts b = false :=
        fun hreject => (pairwise_conflicts_iff hentry hroutes hnodup).2 fun a ha b hb =>
          hconflicts hreject a b ((hmem a).1 ha) ((hmem b).1 hb)
      obtain ⟨built, hof⟩ := exists_ofRoutes_iff.2 hpairwise
      exact ⟨_, (hbuilt _).2 ⟨routes, built, hroutes, hof, rfl⟩⟩
  · intro table htable
    obtain ⟨routes, built, hroutes, hof, rfl⟩ := (hbuilt table).1 htable
    have hperm : built.routes.Perm routes := routes_perm_of_ofRoutes hof
    refine ⟨rfl, ?_, sites, hnodup, hmem, ?_⟩
    · have hsources := pairwise_source hentry hroutes hwalkable.absolute hnodup
      exact (List.Perm.pairwise_iff (fun hab hba => hab hba.symm) hperm).2 hsources
    · rw [← map_source_canonical_eq hentry hroutes]
      exact hperm.map _

def shopHost : Host := ⟨.upTo 300000, .root⟩

/-- A tree with one route file, in a group, between a directory that has the name of one and a file
that nearly has. -/
def shopTree : Disk.Tree :=
  ((Disk.Tree.empty.addFile (.ofText "/app/index.ts/notes".toList)).addFile
    (.ofText "/app/(shop)/[item]/index.tsx".toList)).addFile (.ofText "/app/[/index.tsx.bak".toList)

def shopOptions : Options := { tieBreak := .reject }

def shopFiles : List (List Bytes) :=
  [["index.tsx.bak", "["], ["index.tsx", "[item]", "(shop)"], ["notes", "index.ts"]].map fun names =>
    names.map fun name => Utf8.encode name.toList

def shopRoute : Route where
  source := .ofText "/app/(shop)/[item]/index.tsx".toList
  canonical := "/[item]".toList
  segments := [.wildcard "item".toList]
  layout := none
  segments_eq := by decide +kernel

/-- The directory `[`, which is no segment, does not count, because its file is no route file. -/
theorem ofDirectory_routeFiles_shop :
    ofDirectory shopHost shopTree shopOptions (.ofText "app//.".toList) =
      .ok ⟨[shopRoute], some (.ofText "/app".toList)⟩ ∧
    (∀ s : Site, s.IsRouteFile shopTree shopOptions [Utf8.encode "app".toList] →
      ∃ segments, s.Reads segments) ∧
    ∃ sites : List Site, sites.Nodup ∧
      (∀ s, s ∈ sites ↔ s.IsRouteFile shopTree shopOptions [Utf8.encode "app".toList]) ∧
      [(shopRoute.source, shopRoute.canonical)].Perm
        (sites.map fun s => (s.source (.ofText "/app".toList), s.canonical)) := by
  have hengine : shopHost.engine.TakesUpTo longestPattern := fun segments hlength =>
    if_pos (hlength.trans (by decide))
  have hutf8 : shopTree.HasUtf8Names := by
    unfold Disk.Tree.HasUtf8Names
    decide +kernel
  have hlayouts : shopOptions.discoverLayouts → shopHost.engine.Takes shopOptions.layoutSource := by
    decide +kernel
  have hroot : Disk.Path.absolute? (.ofText "app//.".toList) shopHost.current =
      some (.ofText "/app".toList) := by decide +kernel
  have htop : shopTree.findDirectory (.ofText "/app".toList) = .ok [Utf8.encode "app".toList] := by
    decide +kernel
  have hwalk : shopTree.walk shopOptions.followLinks (.ofText "/app".toList)
      [Utf8.encode "app".toList] = .ok shopFiles := by decide +kernel
  have hbuilt : ofDirectory shopHost shopTree shopOptions (.ofText "app//.".toList) =
      .ok ⟨[shopRoute], some (.ofText "/app".toList)⟩ := by cbv
  obtain ⟨hiff, htable⟩ :=
    ofDirectory_routeFiles shopHost hengine shopTree hutf8 shopOptions rfl hlayouts _ _ hroot _ htop
      _ hwalk
  obtain ⟨_, _, hsites⟩ := htable _ hbuilt
  exact ⟨hbuilt, (hiff.1 ⟨_, hbuilt⟩).1, hsites⟩

end Table

end FileRouting
