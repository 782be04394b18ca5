import FileRouting.Discovery.Scan
import FileRouting.Proofs.Following
import FileRouting.Proofs.LayoutNames
import FileRouting.Proofs.ReadingPaths
import Mathlib.Data.Set.List

/-! # Places of route files

A `Site` says in text where a file is below a base directory, and from that alone which logical path
a route has there and which segments that reads as.  In a tree of UTF-8 names, the files below a
directory are one to one with sites (`Site.exists_sites_of_walk`), and a scan finds the
sites of all route files, none of them twice (`Site.exists_sites_of_scan`). -/

namespace FileRouting

/-! ## Texts of directories -/

namespace Text

/-- Whether a text can be the name of a directory, as far as it matters between slashes. -/
def IsPart (part : Text) : Prop := part ≠ [] ∧ '/' ∉ part ∧ part ≠ ['.']

theorem isPart_of_isPlainName {part : Text} (h : Disk.IsPlainName (Utf8.encode part)) :
    IsPart part := by
  obtain ⟨hne, hslash, hdot, _⟩ := h
  refine ⟨?_, ?_, ?_⟩
  · rintro rfl
    exact hne rfl
  · intro hmem
    exact hslash (List.mem_flatMap.2 ⟨'/', hmem, by decide⟩)
  · rintro rfl
    exact hdot (by decide)

theorem components_intercalate {parts : List Text} (h : ∀ part ∈ parts, IsPart part) :
    components (List.intercalate ['/'] parts) = parts := by
  by_cases hne : parts = []
  · subst hne
    rfl
  rw [components, pieces, List.splitOn_intercalate '/' (fun part hpart => (h part hpart).2.1) hne,
    List.filter_eq_self]
  exact fun part hpart => by simpa using (h part hpart).1

end Text

namespace LogicalPath

theorem dropStart_of_isPart {part : Text} (h : Text.IsPart part) (behind : Text) :
    dropStart (part ++ behind) = part ++ behind := by
  obtain ⟨hne, hslash, hdot⟩ := h
  obtain ⟨c, part, rfl⟩ := List.exists_cons_of_ne_nil hne
  rw [List.mem_cons, not_or] at hslash
  unfold dropStart
  split
  · next t heq =>
    -- a dot with a slash behind it is a whole name
    cases part with
    | nil =>
        rw [List.cons_append, List.cons.injEq] at heq
        exact absurd (by rw [heq.1]) hdot
    | cons d part =>
        rw [List.cons_append, List.cons_append, List.cons.injEq, List.cons.injEq] at heq
        exact absurd (heq.2.1 ▸ List.mem_cons_self ..) hslash.2
  · next t heq =>
    rw [List.cons_append, List.cons.injEq] at heq
    exact absurd heq.1.symm hslash.1
  · next heq =>
    rw [List.cons_append, List.cons.injEq, List.append_eq_nil_iff] at heq
    exact absurd (by rw [heq.1, heq.2.1]) hdot
  · rfl

theorem dropStart_intercalate {parts : List Text} (h : ∀ part ∈ parts, Text.IsPart part) :
    dropStart (List.intercalate ['/'] parts) = List.intercalate ['/'] parts := by
  cases parts with
  | nil => rfl
  | cons part parts =>
      have hpart := h part (List.mem_cons_self ..)
      cases parts with
      | nil => simpa [List.intercalate] using dropStart_of_isPart hpart []
      | cons next parts =>
          simpa [List.intercalate] using dropStart_of_isPart hpart
            ('/' :: List.intercalate ['/'] (next :: parts))

/-- The components of a directory that count, read from the text of the whole. -/
theorem visible_intercalate {parts : List Text} (h : ∀ part ∈ parts, Text.IsPart part) :
    visible (List.intercalate ['/'] parts) = parts.filter fun part => !isGroup part := by
  rw [visible, dropStart_intercalate h, Text.components_intercalate h]

end LogicalPath

/-! ## Trees of UTF-8 names -/

namespace Disk.Tree

variable {t : Tree} {top : Location} {e : Entry}

def HasUtf8Names (t : Tree) : Prop := ∀ x ∈ t.entries, ∀ name ∈ x.1, (Utf8.decode? name).isSome

theorem HasUtf8Names.of_entry?_cons (h : t.HasUtf8Names) {name : Bytes} {location : Location}
    (hentry : t.entry? (name :: location) = some e) : ∃ text, name = Utf8.encode text := by
  have hmem : (name :: location, e) ∈ t.entries := mem_entries_iff.2 ⟨by simp, hentry⟩
  obtain ⟨text, htext⟩ := Option.isSome_iff_exists.1 (h _ hmem name (List.mem_cons_self ..))
  exact ⟨text, (Utf8.decode?_eq_some_iff.1 htext).symm⟩

/-- The names below a directory are texts, which stand the other way round where they are read as a
path. -/
theorem HasUtf8Names.exists_encode (h : t.HasUtf8Names) {names : List Bytes}
    (hentry : t.entry? (names ++ top) = some e) :
    ∃ parts : List Text, names = (parts.map Utf8.encode).reverse := by
  induction names generalizing e with
  | nil => exact ⟨[], rfl⟩
  | cons name names ih =>
      obtain ⟨text, rfl⟩ := h.of_entry?_cons hentry
      obtain ⟨parts, rfl⟩ := ih (Tree.of_entry?_cons hentry).2
      exact ⟨parts ++ [text], by simp⟩

theorem namesBelow?_eq_some_iff {location : Location} {names : List Bytes} :
    namesBelow? top location = some names ↔ location = names ++ top := by
  rw [namesBelow?, Option.map_eq_some_iff]
  constructor
  · rintro ⟨rest, hrest, rfl⟩
    rw [dropFront?_eq_some_iff] at hrest
    rw [← List.reverse_reverse location, hrest, List.reverse_append, List.reverse_reverse]
  · rintro rfl
    exact ⟨names.reverse, by simp, List.reverse_reverse names⟩

theorem mem_below_iff {names : List Bytes} :
    names ∈ t.below e top ↔ names ++ top ≠ [] ∧ t.entry? (names ++ top) = some e := by
  rw [below, List.mem_filterMap, ← mem_entries_iff]
  simp only [Option.ite_none_right_eq_some, namesBelow?_eq_some_iff]
  constructor
  · rintro ⟨⟨location, found⟩, hmem, rfl, rfl⟩
    exact hmem
  · exact fun hmem => ⟨_, hmem, rfl, rfl⟩

theorem nodup_below (t : Tree) (e : Entry) (top : Location) : (t.below e top).Nodup := by
  apply List.Nodup.filterMap _ t.wellFormed.nodup.of_map
  rintro ⟨location, found⟩ ⟨location', found'⟩ names h h'
  simp only [Option.mem_def, Option.ite_none_right_eq_some, namesBelow?_eq_some_iff] at h h'
  rw [h.1, h.2, h'.1, h'.2]

/-- A walk that does not follow links lists the files below a directory, and ends early only at a
directory that cannot be looked up. -/
theorem walk_eq_ok {root : Path} {files : List (List Bytes)}
    (h : t.walk false root top = .ok files) :
    files = t.below .file top ∧
      ∀ names ∈ t.below .directory top, (root.descend names).fault? = none := by
  simp only [walk, walkPlain, Bool.false_eq_true, if_false] at h
  split at h
  · cases h
  · next hnone =>
    cases h
    refine ⟨rfl, ?_⟩
    intro names hnames
    rw [List.findSome?_eq_none_iff] at hnone
    simpa using hnone names (List.mem_reverse.2 hnames)

theorem walkable_of_walk {root : Path} (hroot : root.isAbsolute)
    (htop : t.findDirectory root = .ok top) {files : List (List Bytes)}
    (hwalk : t.walk false root top = .ok files) : t.Walkable root top where
  absolute := hroot
  leads := htop
  clear := by
    intro names hnames
    by_cases hne : names ++ top = []
    · -- the base itself has been looked up
      rw [(List.append_eq_nil_iff.1 hne).1]
      exact (findDirectory_eq_ok_iff.1 htop).1
    · exact (walk_eq_ok hwalk).2 names (mem_below_iff.2 ⟨hne, hnames⟩)

end Disk.Tree

/-! ## Sites -/

/-- Where a file is below a base directory: the directories down to it, and its name. -/
structure Site where
  directories : List Text
  file : Text
  deriving DecidableEq, Repr

namespace Site

variable {s : Site} {t : Disk.Tree} {top : Disk.Location} {e : Disk.Entry}

/-- The names of the directories, the last one first. -/
def outer (s : Site) : List Bytes := (s.directories.map Utf8.encode).reverse

/-- All names, that of the file first. -/
def names (s : Site) : List Bytes := Utf8.encode s.file :: s.outer

def source (s : Site) (root : Disk.Path) : Disk.Path := root.descend s.names

/-- The directories that show in the logical path: those that are no groups. -/
def visible (s : Site) : List Text := s.directories.filter fun part => !LogicalPath.isGroup part

/-- The logical path of a route that is declared at the site. -/
def canonical (s : Site) : Text := '/' :: List.intercalate ['/'] s.visible

/-- Whether the visible directories read as the segments of a route, without a repeated name. -/
def Reads (s : Site) (segments : List Segment) : Prop :=
  ∃ declared, List.Forall₂ (fun part s => Segment.read? part = some s) s.visible declared ∧
    segments = Segment.orRoot declared ∧ (Segment.names declared).Nodup

/-- Whether the routes of two sites conflict. -/
def Conflicts (a b : Site) : Prop :=
  ∃ as bs, a.Reads as ∧ b.Reads bs ∧ Segment.conflict as bs

/-- Whether the site is that of a file below the directory at a location, with the name of a route
file: the stem, a dot, and an extension of the options. -/
def IsRouteFile (t : Disk.Tree) (o : Options) (top : Disk.Location) (s : Site) : Prop :=
  t.entry? (s.names ++ top) = some .file ∧
    ∃ e, o.extensions.contains e ∧ s.file = o.routeFileStem ++ '.' :: e.name

/-! ### What is read from the names -/

theorem isPart_of_entry?_eq_some (h : t.entry? (s.names ++ top) = some e) :
    ∀ part ∈ s.directories, Text.IsPart part := by
  intro part hpart
  apply Text.isPart_of_isPlainName
  apply Disk.IsName.isPlainName
  apply Disk.Tree.isName_of_entry?_eq_some h
  exact List.mem_cons_of_mem _ (List.mem_reverse.2 (List.mem_map_of_mem hpart))

theorem directoryText_outer (s : Site) :
    RouteFile.directoryText s.outer = List.intercalate ['/'] s.directories := by
  rw [RouteFile.directoryText, outer, List.reverse_reverse, List.map_map]
  congr 1
  conv_rhs => rw [← List.map_id s.directories]
  exact List.map_congr_left fun part _ => Utf8.decodeLossy_encode part

theorem visible_eq (h : ∀ part ∈ s.directories, Text.IsPart part) :
    LogicalPath.visible (RouteFile.directoryText s.outer) = s.visible := by
  rw [directoryText_outer, LogicalPath.visible_intercalate h, visible]

theorem ofDirectory_eq_canonical (h : ∀ part ∈ s.directories, Text.IsPart part) :
    LogicalPath.ofDirectory (RouteFile.directoryText s.outer) = s.canonical := by
  rw [LogicalPath.ofDirectory, visible_eq h, canonical]
  split
  · next hnil => rw [hnil]; rfl
  · next hne => exact Text.slashed_eq_intercalate hne

theorem ofLogicalPath_canonical_iff (h : ∀ part ∈ s.directories, Text.IsPart part)
    {segments : List Segment} :
    Segment.ofLogicalPath s.canonical = .ok segments ↔ s.Reads segments := by
  rw [Segment.ofLogicalPath_eq_ok_iff, ← ofDirectory_eq_canonical h,
    LogicalPath.components_ofDirectory, visible_eq h, Reads]

theorem names_injective : Function.Injective names := by
  rintro ⟨directories, file⟩ ⟨directories', file'⟩ h
  rw [names, names, List.cons.injEq, outer, outer, List.reverse_inj] at h
  rw [Site.mk.injEq]
  exact ⟨List.map_injective_iff.2 Utf8.encode_injective h.2, Utf8.encode_injective h.1⟩

/-- Sites are told apart by the components of their paths. -/
theorem eq_of_source_same {root : Disk.Path} (hroot : root.isAbsolute) {a b : Site}
    (ha : ∀ name ∈ a.names, Disk.IsName name) (hb : ∀ name ∈ b.names, Disk.IsName name)
    (h : (a.source root).Same (b.source root)) : a = b := by
  rw [source, source, Disk.Path.Same, Disk.Path.components_descend hroot ha,
    Disk.Path.components_descend hroot hb, List.append_cancel_left_eq] at h
  have hname : Function.Injective Disk.Component.name := fun _ _ heq => by cases heq; rfl
  have hreverse := List.map_injective_iff.2 hname h
  exact names_injective (List.reverse_inj.1 hreverse)

/-! ### All sites below a directory -/

theorem exists_site (htop : t.isDirectoryAt top) (hutf8 : t.HasUtf8Names) {names : List Bytes}
    (h : t.entry? (names ++ top) = some .file) : ∃ s : Site, s.names = names := by
  obtain ⟨parts, rfl⟩ := hutf8.exists_encode h
  have hne : parts ≠ [] := by
    rintro rfl
    simp [Disk.Tree.isDirectoryAt] at htop
    simp [htop] at h
  refine ⟨⟨parts.dropLast, parts.getLast hne⟩, ?_⟩
  conv_rhs => rw [← List.dropLast_concat_getLast hne]
  simp [Site.names, outer]

/-- A walk that does not follow links visits every file below a directory once. -/
theorem exists_sites_of_walk (htop : t.isDirectoryAt top) (hutf8 : t.HasUtf8Names)
    {root : Disk.Path} {files : List (List Bytes)} (hwalk : t.walk false root top = .ok files) :
    ∃ sites : List Site, files = sites.map names ∧ sites.Nodup ∧
      ∀ s : Site, s ∈ sites ↔ t.entry? (s.names ++ top) = some .file := by
  obtain ⟨rfl, _⟩ := Disk.Tree.walk_eq_ok hwalk
  have hrange : t.below .file top ∈ Set.range (List.map names) := by
    rw [Set.range_list_map]
    exact fun names hnames => exists_site htop hutf8 (Disk.Tree.mem_below_iff.1 hnames).2
  obtain ⟨sites, hsites⟩ := hrange
  refine ⟨sites, hsites.symm, ?_, ?_⟩
  · apply List.Nodup.of_map names
    rw [hsites]
    exact Disk.Tree.nodup_below t .file top
  · intro s
    rw [← List.mem_map_of_injective names_injective, hsites, Disk.Tree.mem_below_iff]
    simp [names]

/-- The route file at a site, whose name is that of one. -/
def routeFile (s : Site) (root : Disk.Path) : RouteFile :=
  ⟨s.source root, RouteFile.directoryText s.outer⟩

theorem ofNames?_names (o : Options) (root : Disk.Path) (s : Site) :
    RouteFile.ofNames? o root s.names =
      if o.declaresRoute s.file then some (s.routeFile root) else none := by
  rw [names, RouteFile.ofNames?, Utf8.decode?_encode]
  rfl

/-- A scan finds every site of a route file once. -/
theorem exists_sites_of_scan (o : Options) (htop : t.isDirectoryAt top) (hutf8 : t.HasUtf8Names)
    {root : Disk.Path} {files : List (List Bytes)} (hwalk : t.walk false root top = .ok files) :
    ∃ sites : List Site, sites.Nodup ∧ (∀ s, s ∈ sites ↔ s.IsRouteFile t o top) ∧
      files.filterMap (RouteFile.ofNames? o root) = sites.map (·.routeFile root) := by
  obtain ⟨sites, rfl, hnodup, hmem⟩ := exists_sites_of_walk htop hutf8 hwalk
  refine ⟨sites.filter fun s => o.declaresRoute s.file, hnodup.filter _, ?_, ?_⟩
  · intro s
    rw [List.mem_filter, hmem, Options.declaresRoute, Options.isFileOf_iff, IsRouteFile]
  · rw [List.filterMap_map, ← List.filterMap_eq_map, List.filterMap_filter]
    apply List.filterMap_congr
    intro s _
    exact ofNames?_names o root s

end Site

end FileRouting
