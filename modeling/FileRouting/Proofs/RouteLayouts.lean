import FileRouting.Proofs.RouteFiles

/-! # Layouts of routes

The layout of a route that is built from a directory is the nearest one: it is in the directory of
the route file or in the next directory on the way up to the base that has an entry with the name of
a layout.

The search goes by whole paths, with the expression for layouts.  That comes to the names of the
entries alone (`Options.finds_layoutAt`) if some extension is enabled, which the options ensure as
long as their extensions have no bits of no meaning. -/

namespace FileRouting

/-- Known flags alone make a set that holds an extension. -/
theorem Extensions.names_ne_nil {s : Extensions} (hempty : s.isEmpty = false)
    (hknown : s.unknown = 0) : s.names ≠ [] := by
  have hany : ∀ bits : UInt8, isEmpty ⟨bits⟩ = false → unknown ⟨bits⟩ = 0 →
      Extension.all.any (contains ⟨bits⟩) := by decide +kernel
  obtain ⟨e, _, he⟩ := List.any_eq_true.1 (hany s.bits hempty hknown)
  intro hnil
  rw [names_eq_nil_iff.1 hnil e] at he
  cases he

namespace Options

variable {t : Disk.Tree} {o : Options} {root : Disk.Path} {top : Disk.Location}

/-- Whether a directory has an entry of the given name and this is the name of a layout. -/
def LayoutAt (o : Options) (t : Disk.Tree) (top : Disk.Location) (outer : List Bytes)
    (name : Bytes) : Prop :=
  (t.entry? (name :: (outer ++ top))).isSome ∧ ∃ file, name = Utf8.encode file ∧ o.NamesLayout file

theorem finds_layoutAt (hutf8 : t.HasUtf8Names) (hroot : root.isAbsolute)
    (hstem : '/' ∉ o.layoutFileStem) (hnames : o.extensions.names ≠ []) :
    Upward.Finds t o.isLayoutPath root top (o.LayoutAt t top) := by
  intro outer _ name
  apply and_congr_right
  intro hsome
  obtain ⟨e, hentry⟩ := Option.isSome_iff_exists.1 hsome
  have hname := (Disk.Tree.of_entry?_cons hentry).1
  obtain ⟨directory, hchild⟩ := Disk.Path.exists_child_eq
    (Disk.Path.isAbsolute_trimmed (Disk.Path.isAbsolute_descend hroot outer)) hname.2.2.1
  obtain ⟨file, rfl⟩ := hutf8.of_entry?_cons hentry
  have hfile : '/' ∉ file := (Text.isPart_of_isPlainName hname.isPlainName).2.1
  rw [hchild, isLayoutPath_display hstem hfile]
  constructor
  · rintro ⟨other, hother, hlayout⟩
    rw [Utf8.encode_injective hother]
    exact .inl hlayout
  · rintro (hlayout | ⟨hnil, _⟩)
    · exact ⟨file, rfl, hlayout⟩
    · exact absurd hnil hnames

end Options

namespace Table

/-- Every route of a table that is built from a directory is that of a route file below, and its
layout is the nearest one, by the names of the entries on the way up from the file to the base. -/
theorem ofDirectory_nearestLayout (host : Host) (t : Disk.Tree) (hutf8 : t.HasUtf8Names)
    (o : Options) (hvalid : o.validate = .ok ()) (hlayouts : o.discoverLayouts = true)
    (hlinks : o.followLinks = false) (hknown : o.extensions.unknown = 0) (base : Disk.Path)
    (table : Table) (h : ofDirectory host t o base = .ok table) :
    ∃ root top, base.absolute? host.current = some root ∧ t.findDirectory root = .ok top ∧
      ∀ r ∈ table.routes, ∃ s : Site, s.IsRouteFile t o top ∧ r.source = s.source root ∧
        Upward.FoundNearest root (o.LayoutAt t top) s.outer r.layout := by
  obtain ⟨root, top, files, _, _, hroot, htop, hwalk, htold, _⟩ := ofDirectory_eq_ok_iff.1 h
  have habsolute := Disk.Path.isAbsolute_of_absolute? hroot
  have hwalkable := Disk.Tree.walkable_of_walk habsolute htop (hlinks ▸ hwalk)
  obtain ⟨sites, _, hmem, hbuilt⟩ :=
    exists_sites_of_ofDirectory hutf8 hlinks hroot htop hwalk htold
  obtain ⟨routes, built, hroutes, hof, rfl⟩ := (hbuilt table).1 h
  obtain ⟨hextensions, hstem⟩ := Options.of_validate hvalid hlayouts
  refine ⟨root, top, hroot, htop, ?_⟩
  intro r hr
  obtain ⟨s, hs, hmade⟩ :=
    exists_of_mem_right hroutes ((routes_perm_of_ofRoutes hof).mem_iff.1 hr)
  have hsite := (hmem s).1 hs
  obtain ⟨hfile, hdirectory⟩ := Disk.Tree.of_entry?_cons hsite.1
  have hfinds : Upward.Finds t o.isLayoutPath root top (o.LayoutAt t top) :=
    Options.finds_layoutAt hutf8 habsolute hstem (Extensions.names_ne_nil hextensions hknown)
  obtain ⟨layout, hlayout, hnearest⟩ := Upward.foundNearest hwalkable hfinds hfile hdirectory
  have hsearch := (routeOf_eq_ok hmade).2.2 hlayouts
  refine ⟨s, hsite, (Site.of_routeOf hsite.1 hmade).1, ?_⟩
  rwa [← Except.ok.inj (hlayout.symm.trans hsearch)]

/-- A tree with layouts above the base, in the base and beside the way up to it, and on the way a
file whose name only ends like that of a layout. -/
def blogTree : Disk.Tree :=
  ["/layout.js", "/app/layout.tsx", "/app/layout.js", "/app/news/layout.js",
    "/app/blog/my-layout.js", "/app/blog/(x)/index.ts"].foldl
    (fun t path => t.addFile (.ofText path.toList)) .empty

def blogRoute : Route where
  source := .ofText "/app/blog/(x)/index.ts".toList
  canonical := "/blog".toList
  segments := [.literal "blog".toList]
  layout := some (.ofText "/app/layout.js".toList)
  segments_eq := by decide +kernel

def blogTable : Table := ⟨[blogRoute], some (.ofText "/app".toList)⟩

theorem ofDirectory_nearestLayout_blog :
    ofDirectory .plain blogTree {} (.ofText "/app".toList) = .ok blogTable ∧
    ∃ (top : Disk.Location) (s : Site), s.IsRouteFile blogTree {} top ∧
      Upward.FoundNearest (.ofText "/app".toList) (Options.LayoutAt {} blogTree top) s.outer
        (some (.ofText "/app/layout.js".toList)) := by
  have hutf8 : blogTree.HasUtf8Names := by
    unfold Disk.Tree.HasUtf8Names
    decide +kernel
  have hroot : Disk.Path.absolute? (.ofText "/app".toList) Host.plain.current =
      some (.ofText "/app".toList) := by decide +kernel
  have hbuilt : ofDirectory .plain blogTree {} (.ofText "/app".toList) = .ok blogTable := by cbv
  obtain ⟨root, top, hbase, _, hroutes⟩ :=
    ofDirectory_nearestLayout .plain blogTree hutf8 {} (by decide) rfl rfl (by decide) _ _ hbuilt
  obtain rfl := Option.some.inj (hroot.symm.trans hbase)
  obtain ⟨s, hs, _, hlayout⟩ := hroutes blogRoute (List.mem_singleton_self _)
  exact ⟨hbuilt, top, s, hs, hlayout⟩

end Table

end FileRouting
