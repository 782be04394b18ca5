import FileRouting.Proofs.AbsolutePaths
import FileRouting.Proofs.LogicalPaths
import FileRouting.Table.Building

/-! # Building step by step

What building a table goes through, as one equation for each function on the way: the route of a
logical path, the route of a route file, and the table of a directory, which is the table of the
routes of all route files below with the directory as its base (`Table.ofDirectory_eq_ok_iff`).  The
engine is asked for the layouts once and for each route. -/

namespace FileRouting

namespace Table

variable {host : Host} {engine : Engine} {t : Disk.Tree} {o : Options} {base : Disk.Path}

theorem routeOf_eq_ok {file : RouteFile} {r : Route} (h : routeOf engine t o base file = .ok r) :
    r.source = file.source ∧ r.canonical = LogicalPath.ofDirectory file.directory ∧
      (o.discoverLayouts → Upward.nearest t o.isLayoutPath file.source base = .ok r.layout) := by
  unfold routeOf at h
  split at h
  · cases h
  next made hmade =>
  obtain ⟨hsource, hcanonical, _⟩ := Route.ofLogicalPath_eq_ok_iff.1 hmade
  split at h
  · split at h
    · cases h
    · next layout hlayout =>
      cases h
      exact ⟨hsource, hcanonical, fun _ => hlayout⟩
  · next hoff =>
    cases h
    exact ⟨hsource, hcanonical, fun hon => absurd hon hoff⟩

/-- A route file gives a route if its logical path is one whose pattern the engine takes, unless the
search for layouts fails. -/
theorem exists_routeOf_iff {file : RouteFile}
    (hlayout : ∃ layout, Upward.nearest t o.isLayoutPath file.source base = .ok layout) :
    (∃ r, routeOf engine t o base file = .ok r) ↔ ∃ segments,
      Segment.ofLogicalPath (LogicalPath.ofDirectory file.directory) = .ok segments ∧
        engine.Takes (Pattern.ofSegments segments).source := by
  obtain ⟨layout, hlayout⟩ := hlayout
  rw [← @Route.exists_ofLogicalPath_iff engine file.source, ← Route.ofDirectory, routeOf]
  cases Route.ofDirectory engine file.source file.directory with
  | error e => simp
  | ok made =>
      simp only [hlayout, Except.ok.injEq, exists_eq']
      split <;> simp

theorem checkLayouts_eq_ok_iff :
    checkLayouts engine o = .ok () ↔ (o.discoverLayouts → engine.Takes o.layoutSource) := by
  unfold checkLayouts Options.layoutMatcher Engine.Takes
  split
  · next hon => cases engine.refusal? o.layoutSource <;> simp [hon, Except.map]
  · next hoff => simp [hoff]

/-- What building from a directory goes through. -/
theorem ofDirectory_eq_ok_iff {table : Table} :
    ofDirectory host t o base = .ok table ↔ ∃ root top files routes built,
      base.absolute? host.current = some root ∧
      t.findDirectory root = .ok top ∧ t.walk o.followLinks root top = .ok files ∧
      (o.discoverLayouts → host.engine.Takes o.layoutSource) ∧
      (files.filterMap (RouteFile.ofNames? o root)).mapM (routeOf host.engine t o root) =
        .ok routes ∧
      ofRoutes o.tieBreak routes = .ok built ∧ table = { built with base := some root } := by
  rw [← checkLayouts_eq_ok_iff]
  constructor
  · intro h
    unfold ofDirectory at h
    split at h
    · cases h
    next root hroot =>
    -- the scan makes the path absolute once more, which changes nothing
    simp only [scan, Disk.Path.absolute?_idem hroot host.current] at h
    cases htop : t.findDirectory root with
    | error e =>
        rw [htop] at h
        cases h
    | ok top =>
    cases hwalk : t.walk o.followLinks root top with
    | error e =>
        simp only [htop, hwalk] at h
        cases h
    | ok files =>
    simp only [htop, hwalk] at h
    split at h
    · cases h
    next hlayouts =>
    split at h
    · cases h
    next routes hroutes =>
    obtain ⟨built, hbuilt, rfl⟩ := map_eq_ok_iff.1 h
    exact ⟨root, top, files, routes, built, hroot, htop, hwalk, hlayouts, hroutes, hbuilt, rfl⟩
  · rintro ⟨root, top, files, routes, built, hroot, htop, hwalk, hlayouts, hroutes, hbuilt, rfl⟩
    simp only [ofDirectory, scan, hroot, Disk.Path.absolute?_idem hroot host.current, htop, hwalk,
      hlayouts, hroutes, hbuilt]
    rfl

/-! ## Bases -/

theorem base_of_ofRoutes {b : TieBreak} {routes : List Route} {table : Table}
    (h : ofRoutes b routes = .ok table) : table.base = none := by
  obtain ⟨arranged, _, rfl⟩ := map_eq_ok_iff.1 h
  rfl

/-- The base of a table that was built from a directory is that directory by its absolute path. -/
theorem base_of_ofDirectory {table : Table} (h : ofDirectory host t o base = .ok table) :
    table.base = base.absolute? host.current := by
  obtain ⟨root, _, _, _, _, hroot, _, _, _, _, _, rfl⟩ := ofDirectory_eq_ok_iff.1 h
  exact hroot.symm

theorem Built.absolute?_base {table : Table} (h : table.Built) {base : Disk.Path}
    (hbase : table.base = some base) (current : Disk.WorkingDirectory) :
    base.absolute? current = some base := by
  cases h with
  | ofRoutes h =>
      rw [base_of_ofRoutes h] at hbase
      cases hbase
  | ofDirectory h =>
      rw [base_of_ofDirectory h] at hbase
      exact Disk.Path.absolute?_idem hbase current

end Table

end FileRouting
