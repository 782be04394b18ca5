import FileRouting.Proofs.UpwardScans

/-! # Bounds of upward scans

The scan for all accepted entries asks for the bound before it looks into a directory, and reports
nothing outside of it.  The scan for the nearest entry asks afterwards, and so it always looks into
the first directory.  What it reports lies inside the bound otherwise, since it goes up only from
below the bound (`Upward.OnWay.cases`).  An entry outside is reported exactly if the scan starts
from outside, with an accepted entry beside the start (`Upward.startsWith_of_scans`). -/

namespace FileRouting

namespace Disk.Path

variable {p stop : Path} {name : Bytes}

theorem startsWith_child_iff (h : p.isAbsolute) (hname : IsName name) :
    (p.child name).StartsWith stop ↔ p.StartsWith stop ∨ (p.child name).Same stop := by
  have hcomponents : (p.child name).components = p.components ++ [.name name] :=
    components_descend h (List.forall_mem_singleton.2 hname)
  rw [StartsWith, StartsWith, Same, hcomponents, List.prefix_concat_iff, or_comm, eq_comm]

end Disk.Path

namespace Upward

open Disk (Path Tree Location Entry IsName)

variable {t : Tree} {accepts : Text → Bool} {source stop p directory : Path}

/-! ## Where scans look -/

theorem exists_of_mem_allIn {directories found : List Path} {onePerLevel : Bool}
    (h : allIn t accepts stop onePerLevel directories = .ok found) (hp : p ∈ found) :
    ∃ directory ∈ directories, directory.StartsWith stop ∧
      ∃ entries, acceptedEntries t accepts directory = .ok entries ∧ p ∈ entries := by
  induction directories generalizing found with
  | nil =>
      cases h
      cases hp
  | cons first above ih =>
      rw [allIn] at h
      split at h
      · cases h
        cases hp
      next hboundary =>
      rw [Bool.not_eq_true, isBoundary_eq_false_iff] at hboundary
      split at h
      · cases h
      next entries hentries =>
      cases hmore : allIn t accepts stop onePerLevel above with
      | error e =>
          rw [hmore] at h
          cases h
      | ok more =>
          rw [hmore] at h
          cases h
          rcases List.mem_append.1 hp with hp | hp
          · refine ⟨first, List.mem_cons_self .., hboundary.1, entries, hentries, ?_⟩
            split at hp
            · exact List.mem_of_mem_take hp
            · exact hp
          · obtain ⟨directory, hdirectory, hlooked⟩ := ih hmore hp
            exact ⟨directory, List.mem_cons_of_mem _ hdirectory, hlooked⟩

theorem exists_name_of_mem {entries : List Path}
    (h : acceptedEntries t accepts directory = .ok entries) (hp : p ∈ entries) :
    ∃ name, IsName name ∧ p = directory.child name := by
  obtain ⟨location, names, _, rfl, _, hmem⟩ := isLevel_of_acceptedEntries h
  obtain ⟨name, hname, rfl⟩ := List.mem_map.1 hp
  obtain ⟨e, hentry⟩ := Option.isSome_iff_exists.1 ((hmem name).1 hname).1
  exact ⟨name, (Tree.of_entry?_cons hentry).1, rfl⟩

theorem startsWith_of_mem_all (hsource : source.isAbsolute) {found : List Path}
    {onePerLevel : Bool} (h : all t accepts source stop onePerLevel = .ok found) (hp : p ∈ found) :
    p.StartsWith stop := by
  obtain ⟨directory, hdirectory, hinside, entries, hentries, hmem⟩ := exists_of_mem_allIn h hp
  obtain ⟨name, hname, rfl⟩ := exists_name_of_mem hentries hmem
  have habsolute := Path.isAbsolute_of_mem_ancestors hsource hdirectory
  exact (Path.startsWith_child_iff habsolute hname).2 (.inl hinside)

/-- A directory that a scan comes to is the first one, or inside the bound as all that come after
one below the bound. -/
theorem OnWay.cases {nearer : List Path} (h : OnWay stop source.ancestors nearer directory) :
    source.parent? = some directory ∨ directory.StartsWith stop := by
  obtain ⟨farther, hancestors, hnearer⟩ := h
  induction nearer generalizing source with
  | nil => exact .inl (Path.of_ancestors_eq_cons hancestors).1
  | cons first nearer ih =>
      rw [List.forall_mem_cons] at hnearer
      obtain ⟨_, habove⟩ := Path.of_ancestors_eq_cons hancestors
      rcases ih habove hnearer.2 with hparent | hinside
      · exact .inr (Path.startsWith_parent? hparent hnearer.1.1 hnearer.1.2)
      · exact .inr hinside

theorem IsFirst.startsWith_child_iff {location : Location} {name : Bytes} {e : Entry}
    (h : IsFirst t accepts directory location name e) (habsolute : directory.isAbsolute) :
    (directory.child name).StartsWith stop ↔
      directory.StartsWith stop ∨ (directory.child name).Same stop :=
  Path.startsWith_child_iff habsolute (Tree.of_entry?_cons h.entry).1

/-- All accepted entries are reported from inside the bound.  The nearest one is reported from
outside exactly if the parent of the start is outside and has an accepted entry, of which the first
is not the bound itself. -/
theorem startsWith_of_scans (t : Tree) (accepts : Text → Bool) (source stop : Path)
    (hsource : source.isAbsolute) :
    (∀ onePerLevel found, all t accepts source stop onePerLevel = .ok found →
      ∀ p ∈ found, p.StartsWith stop) ∧
    ∀ p, nearest t accepts source stop = .ok (some p) ∧ ¬ p.StartsWith stop ↔
      ∃ parent location name e, source.parent? = some parent ∧ ¬ parent.StartsWith stop ∧
        IsFirst t accepts parent location name e ∧ p = parent.child name ∧ ¬ p.Same stop := by
  refine ⟨fun _ _ hall _ hp => startsWith_of_mem_all hsource hall hp, ?_⟩
  intro p
  rw [nearest, nearestIn_eq_some_iff]
  constructor
  · rintro ⟨⟨directory, location, name, e, hchosen, rfl⟩, houtside⟩
    obtain ⟨nearer, hway, _⟩ := hchosen.nearest
    have habsolute := hchosen.isAbsolute fun _ => Path.isAbsolute_of_mem_ancestors hsource
    rw [hchosen.first.startsWith_child_iff habsolute, not_or] at houtside
    have hparent := hway.cases.resolve_right houtside.1
    exact ⟨directory, location, name, e, hparent, houtside.1, hchosen.first, rfl, houtside.2⟩
  · rintro ⟨parent, location, name, e, hparent, houtside, hfirst, rfl, hbound⟩
    have habsolute := Path.isAbsolute_parent? hsource hparent
    rw [Path.ancestors_of_parent? hparent, hfirst.startsWith_child_iff habsolute, not_or]
    exact ⟨⟨parent, location, name, e, hfirst.chooses stop _, rfl⟩, houtside, hbound⟩

theorem startsWith_of_scans_nested :
    nestedFile.isAbsolute ∧
    (∀ path ∈ ["/app/a/b/layout.ts", "/app/a/layout.js"],
      Path.StartsWith (.ofText path.toList) nestedBound) ∧
    nearest nestedTree (Options.isLayoutPath {}) nestedFile nestedBound =
      .ok (some (.ofText "/app/a/b/layout.ts".toList)) ∧
    Path.StartsWith (.ofText "/app/a/b/layout.ts".toList) nestedBound := by
  have habsolute : nestedFile.isAbsolute := by decide +kernel
  have hone : all nestedTree (Options.isLayoutPath {}) nestedFile nestedBound true =
      .ok (["/app/a/b/layout.ts", "/app/a/layout.js"].map (.ofText ·.toList)) := by cbv
  have hnearest : nearest nestedTree (Options.isLayoutPath {}) nestedFile nestedBound =
      .ok (some (.ofText "/app/a/b/layout.ts".toList)) := by cbv
  have hinside : Path.StartsWith (.ofText "/app/a/b/c".toList) nestedBound := by decide +kernel
  obtain ⟨hall, houtside⟩ :=
    startsWith_of_scans nestedTree (Options.isLayoutPath {}) nestedFile nestedBound habsolute
  refine ⟨habsolute, ?_, hnearest, ?_⟩
  · exact fun path hpath => hall true _ hone _ (List.mem_map_of_mem hpath)
  · by_contra hnot
    -- the parent of the file is inside the bound
    obtain ⟨parent, _, _, _, hparent, hnotInside, _⟩ := (houtside _).1 ⟨hnearest, hnot⟩
    have hdirectory : nestedFile.parent? = some (.ofText "/app/a/b/c".toList) := by decide +kernel
    cases hparent.symm.trans hdirectory
    exact hnotInside hinside

/-- A tree with a layout beside the directory of all routes. -/
def besideTree : Tree :=
  ["/site/layout.tsx", "/site/app/index.tsx"].foldl (fun t path => t.addFile (.ofText path.toList))
    .empty

/-- From the bound itself, the nearest layout is one outside of it, where the other scan reports
none. -/
theorem nearest_outside_bound :
    nearest besideTree (Options.isLayoutPath {}) (.ofText "/site/app".toList)
      (.ofText "/site/app".toList) = .ok (some (.ofText "/site/layout.tsx".toList)) ∧
    ¬ Path.StartsWith (.ofText "/site/layout.tsx".toList) (.ofText "/site/app".toList) ∧
    all besideTree (Options.isLayoutPath {}) (.ofText "/site/app".toList)
      (.ofText "/site/app".toList) false = .ok [] := by
  refine ⟨by cbv, by decide +kernel, by cbv⟩

end Upward

end FileRouting
