import FileRouting.Discovery.Layout
import FileRouting.Proofs.Following
import Mathlib.Data.List.Nodup

/-! # The way up

An upward scan from a file below a directory meets the directories between them, one for each name
less, and ends with the directory itself.  As long as every directory can be looked up by its path,
the scan cannot fail, and it finds the least accepted entry of the nearest directory that has one
(`Upward.foundNearest`).

Directories are given by their names below the top, the last name first, so that the directories on
the way up are the suffixes of the list. -/

namespace FileRouting

namespace Disk

/-- The name of an entry of a directory, by the location of the entry. -/
def nameIn? (directory : Location) : Location → Option Bytes
  | [] => none
  | name :: parent => if parent = directory then some name else none

theorem eq_cons_of_nameIn? {directory location : Location} {name : Bytes}
    (h : nameIn? directory location = some name) : location = name :: directory := by
  cases location with
  | nil => cases h
  | cons first parent =>
      rw [nameIn?, Option.ite_none_right_eq_some, Option.some.injEq] at h
      rw [h.1, h.2]

theorem Tree.children_eq (t : Tree) (directory : Location) :
    t.children directory = (t.entries.map Prod.fst).filterMap (nameIn? directory) := by
  rw [children, List.filterMap_map]
  rfl

theorem Tree.mem_children_iff {t : Tree} {location : Location} {name : Bytes} :
    name ∈ t.children location ↔ (t.entry? (name :: location)).isSome := by
  rw [children_eq, List.mem_filterMap, Option.isSome_iff_exists]
  constructor
  · rintro ⟨other, hmem, hname⟩
    obtain rfl := eq_cons_of_nameIn? hname
    obtain ⟨⟨_, e⟩, hmem, rfl⟩ := List.mem_map.1 hmem
    exact ⟨e, (mem_entries_iff.1 hmem).2⟩
  · rintro ⟨e, hentry⟩
    refine ⟨name :: location, List.mem_map.2 ⟨(_, e), ?_, rfl⟩, if_pos rfl⟩
    exact mem_entries_iff.2 ⟨List.cons_ne_nil name location, hentry⟩

theorem Tree.nodup_children (t : Tree) (location : Location) : (t.children location).Nodup := by
  rw [children_eq]
  apply List.Nodup.filterMap _ t.wellFormed.nodup
  intro first second name hfirst hsecond
  rw [eq_cons_of_nameIn? (Option.mem_def.1 hfirst), eq_cons_of_nameIn? (Option.mem_def.1 hsecond)]

/-- The names of the entries of a directory, one after the other. -/
theorem Tree.pairwise_sorted_children (t : Tree) (location : Location) :
    ((t.children location).mergeSort fun a b => (compare a b).isLE).Pairwise
      fun a b => compare a b = .lt := by
  have hnodup : ((t.children location).mergeSort fun a b => (compare a b).isLE).Nodup :=
    (List.mergeSort_perm ..).nodup_iff.2 (t.nodup_children location)
  refine ((pairwise_mergeSort_isLE (t.children location)).and hnodup).imp ?_
  rintro a b ⟨hle, hne⟩
  cases horder : compare a b with
  | lt => rfl
  | eq => exact absurd (Std.LawfulEqCmp.eq_of_compare horder) hne
  | gt =>
      rw [horder] at hle
      cases hle

/-- Entries of one name have the same path, however their directory is written at its end. -/
theorem Path.child_trimmed_same {p : Path} (h : p.isAbsolute) {name : Bytes} (hname : IsName name) :
    (p.trimmed.child name).Same (p.child name) := by
  have htrimmed := isAbsolute_trimmed h
  rw [Same, components_eq (isAbsolute_child htrimmed name), components_eq (isAbsolute_child h name),
    parts_child htrimmed hname, parts_child h hname, parts_trimmed h]

end Disk

namespace Upward

open Disk (Path Tree Location IsName)

variable {t : Tree} {accepts : Text → Bool} {root : Path} {top : Location}

/-! ## What is nearest -/

/-- An entry of one of the directories on the way up from the first one: it is of the given kind,
the least of this kind in its directory, and no nearer directory has any. -/
structure IsNearest (kind : List Bytes → Bytes → Prop) (names outer : List Bytes) (name : Bytes) :
    Prop where
  onWay : outer <:+ names
  ofKind : kind outer name
  least : ∀ other, kind outer other → (compare name other).isLE
  nearest : ∀ nearer, nearer <:+ names → outer.length < nearer.length →
    ∀ other, ¬ kind nearer other

/-- The result of a scan that goes up to `root`: the path of the nearest entry of the given kind, or
nothing if no directory on the way has any. -/
inductive FoundNearest (root : Path) (kind : List Bytes → Bytes → Prop) (names : List Bytes) :
    Option Path → Prop where
  | found {outer : List Bytes} {name : Bytes} {p : Path} (hnearest : IsNearest kind names outer name)
      (hpath : p.Same ((root.descend outer).child name)) : FoundNearest root kind names (some p)
  | missing (hnone : ∀ outer, outer <:+ names → ∀ name, ¬ kind outer name) :
      FoundNearest root kind names none

variable {kind : List Bytes → Bytes → Prop} {names : List Bytes}

/-- The first of the entries of a directory is the nearest from there. -/
theorem isNearest_self {name : Bytes} {others : List Bytes}
    (hsorted : (name :: others).Pairwise fun a b => compare a b = .lt)
    (hmem : ∀ other, other ∈ name :: others ↔ kind names other) :
    IsNearest kind names names name where
  onWay := List.suffix_refl names
  ofKind := (hmem name).1 (List.mem_cons_self ..)
  least := fun other hother =>
    isLE_of_pairwise_cons (hsorted.imp Ordering.isLE_of_eq_lt) ((hmem other).2 hother)
  nearest := fun nearer hnearer hlt => absurd hnearer.length_le (by omega)

/-- A directory without an entry of the given kind leaves the search to the directory above. -/
theorem FoundNearest.cons {layout : Option Path} (h : FoundNearest root kind names layout)
    {name : Bytes} (hnone : ∀ other, ¬ kind (name :: names) other) :
    FoundNearest root kind (name :: names) layout := by
  cases h with
  | @found outer entry p hnearest hpath =>
      have honWay : outer <:+ name :: names := hnearest.onWay.trans (List.suffix_cons ..)
      refine .found ⟨honWay, hnearest.ofKind, hnearest.least, ?_⟩ hpath
      intro nearer hnearer hlt
      rcases List.suffix_cons_iff.1 hnearer with rfl | hnearer
      · exact hnone
      · exact hnearest.nearest nearer hnearer hlt
  | missing hmissing =>
      refine .missing ?_
      intro outer houter
      rcases List.suffix_cons_iff.1 houter with rfl | houter
      · exact hnone
      · exact hmissing outer houter

/-! ## One directory -/

theorem acceptedEntries_of_findDirectory (accepts : Text → Bool) {directory : Path}
    {location : Location} (h : t.findDirectory directory = .ok location) :
    ∃ names : List Bytes, acceptedEntries t accepts directory = .ok (names.map directory.child) ∧
      (names.Pairwise fun a b => compare a b = .lt) ∧
      ∀ name, name ∈ names ↔
        (t.entry? (name :: location)).isSome ∧ accepts (directory.child name).display := by
  let sorted := (t.children location).mergeSort fun a b => (compare a b).isLE
  have hlist : t.list directory = .ok sorted := by
    rw [Tree.list, h]
    rfl
  refine ⟨sorted.filter fun name => accepts (directory.child name).display, ?_, ?_, ?_⟩
  · rw [acceptedEntries, hlist]
    exact congrArg Except.ok List.filter_map
  · exact (t.pairwise_sorted_children location).filter _
  · intro name
    rw [List.mem_filter, List.mem_mergeSort, Tree.mem_children_iff]

theorem isBoundary_trimmed (h : root.isAbsolute) : isBoundary root root.trimmed = true := by
  simp [isBoundary, Path.trimmed_same h]

theorem isBoundary_descend (h : root.isAbsolute) (hne : names ≠ [])
    (hnames : ∀ name ∈ names, IsName name) : isBoundary root (root.descend names) = false := by
  have hcomponents := Path.components_descend h hnames
  have hsame : ¬ (root.descend names).Same root := by
    rw [Path.Same, hcomponents]
    simpa using hne
  have hstarts : (root.descend names).StartsWith root := by
    rw [Path.StartsWith, hcomponents]
    exact List.prefix_append ..
  simp [isBoundary, hsame, hstarts]

/-! ## All directories -/

/-- Whether the entries that a scan accepts are those of the given kind, by their paths as they are
met on the way up to `root`. -/
def Finds (t : Tree) (accepts : Text → Bool) (root : Path) (top : Location)
    (kind : List Bytes → Bytes → Prop) : Prop :=
  ∀ outer, t.entry? (outer ++ top) = some .directory → ∀ name, kind outer name ↔
    (t.entry? (name :: (outer ++ top))).isSome ∧
      accepts ((root.descend outer).trimmed.child name).display

/-- A directory on the way up ends the search with its first entry of the given kind, or it has none
and is passed. -/
theorem acceptedEntries_cases (hwalk : t.Walkable root top) (hkind : Finds t accepts root top kind)
    (h : t.entry? (names ++ top) = some .directory) :
    (∃ name p others, acceptedEntries t accepts (root.descend names).trimmed = .ok (p :: others) ∧
      IsNearest kind names names name ∧ p.Same ((root.descend names).child name)) ∨
    acceptedEntries t accepts (root.descend names).trimmed = .ok [] ∧ ∀ name, ¬ kind names name := by
  have habsolute := Path.isAbsolute_descend hwalk.absolute names
  obtain ⟨found, hentries, hsorted, hfound⟩ := acceptedEntries_of_findDirectory accepts
    (Tree.findDirectory_trimmed habsolute (hwalk.findDirectory_descend h))
  have hmem : ∀ name, name ∈ found ↔ kind names name := by
    intro name
    rw [hfound, hkind names h]
  rw [hentries]
  cases found with
  | nil => exact .inr ⟨rfl, fun name hname => List.not_mem_nil ((hmem name).2 hname)⟩
  | cons name others =>
      have hname : IsName name := by
        obtain ⟨hentry, _⟩ := (hfound name).1 (List.mem_cons_self ..)
        obtain ⟨e, hentry⟩ := Option.isSome_iff_exists.1 hentry
        exact (Tree.of_entry?_cons hentry).1
      exact .inl ⟨name, _, _, rfl, isNearest_self hsorted hmem,
        Path.child_trimmed_same habsolute hname⟩

/-- The scan from a file below a directory succeeds, and finds what is nearest. -/
theorem foundNearest (hwalk : t.Walkable root top) (hkind : Finds t accepts root top kind)
    {file : Bytes} (hfile : IsName file) (h : t.entry? (names ++ top) = some .directory) :
    ∃ layout, nearest t accepts (root.descend (file :: names)) root = .ok layout ∧
      FoundNearest root kind names layout := by
  rw [nearest]
  induction names generalizing file with
  | nil =>
      rw [Path.ancestors_descend hwalk.absolute hfile, nearestIn]
      obtain ⟨name, p, others, hentries, hnearest, hpath⟩ | ⟨hentries, hnone⟩ :=
        acceptedEntries_cases hwalk hkind h
      · rw [hentries]
        exact ⟨some p, rfl, .found hnearest hpath⟩
      · -- the base has been looked into and is the bound
        rw [hentries]
        simp only [Path.descend, isBoundary_trimmed hwalk.absolute, if_true]
        refine ⟨none, rfl, .missing ?_⟩
        intro outer houter
        rwa [List.suffix_nil.1 houter]
  | cons name names ih =>
      have hne := List.cons_ne_nil name names
      have hnames := Tree.isName_of_entry?_eq_some h
      rw [Path.ancestors_descend hwalk.absolute hfile, nearestIn]
      obtain ⟨entry, p, others, hentries, hnearest, hpath⟩ | ⟨hentries, hnone⟩ :=
        acceptedEntries_cases hwalk hkind h
      · rw [hentries]
        exact ⟨some p, rfl, .found hnearest hpath⟩
      · -- inside the bound, the search goes on as from the directory above
        rw [hentries, Path.trimmed_descend hwalk.absolute hne hnames]
        simp only [isBoundary_descend hwalk.absolute hne hnames, Bool.false_eq_true, if_false]
        obtain ⟨hname, hdirectory⟩ := Tree.of_entry?_cons h
        obtain ⟨layout, hlayout, hfound⟩ := ih hname hdirectory
        exact ⟨layout, hlayout, hfound.cons hnone⟩

/-- Whatever a scan accepts, it does not fail. -/
theorem exists_nearest (hwalk : t.Walkable root top) (accepts : Text → Bool) {file : Bytes}
    (hfile : IsName file) (h : t.entry? (names ++ top) = some .directory) :
    ∃ layout, nearest t accepts (root.descend (file :: names)) root = .ok layout := by
  have hkind : Finds t accepts root top fun outer name =>
      (t.entry? (name :: (outer ++ top))).isSome ∧
        accepts ((root.descend outer).trimmed.child name).display := fun _ _ _ => Iff.rfl
  obtain ⟨layout, hlayout, _⟩ := foundNearest hwalk hkind hfile h
  exact ⟨layout, hlayout⟩

end Upward

end FileRouting
