import FileRouting.Proofs.LayoutEntries
import FileRouting.Proofs.Sites

/-! # Output directories

A static build joins the components of a logical path to its output directory one by one.  For a
route that is made from a directory of plain names (`Route.DeclaredIn`), each of them is a plain
name again, whether or not it could be read as text, and so it is one component more of the path and
never replaces it.  That makes output directories lie inside `out` and lie apart as long as logical
paths do, whatever `out` is (`Route.outputDirectory_extends`).

The routes of a table that is built from a directory are all made in this way, symbolic links
followed or not (`Table.exists_declaredIn_of_ofDirectory`). -/

namespace FileRouting

/-! ## Names that a walk finds -/

namespace Disk

/-- A name that is read as text and written again may be another one, but it is still plain. -/
theorem IsPlainName.encode_decodeLossy {n : Bytes} (h : IsPlainName n) :
    IsPlainName (Utf8.encode (Utf8.decodeLossy n)) := by
  by_cases hfault : '\uFFFD' ∈ Utf8.decodeLossy n
  · -- neither a dot nor two are written with the bytes of U+FFFD
    have hbyte : 0xEF ∈ Utf8.encode (Utf8.decodeLossy n) :=
      List.mem_flatMap.2 ⟨_, hfault, by decide⟩
    refine ⟨List.ne_nil_of_mem hbyte, ?_, ?_, ?_⟩
    · intro hslash
      exact h.2.1 (Utf8.slash_mem_of_mem_decodeLossy (Utf8.slash_mem_of_mem_encode hslash))
    · intro hhere
      rw [hhere] at hbyte
      exact absurd hbyte (by decide)
    · intro habove
      rw [habove] at hbyte
      exact absurd hbyte (by decide)
  · rwa [Utf8.encode_decodeLossy hfault]

namespace Tree

variable {t : Tree} {start : Path} {files : List (List Bytes)}

/-- A walk lists an entry of the directory that it is in, or goes on into what the entry is or leads
to.  Either way it does so under the name of the entry. -/
theorem exists_of_mem_walkLinks {depth : Nat} {names : List Bytes} {location : Location}
    {outer : List (List Bytes × Location)} {found : List Bytes}
    (h : t.walkLinks start (depth + 1) ((names, location) :: outer) = .ok files)
    (hfound : found ∈ files) :
    ∃ name e, t.entry? (name :: location) = some e ∧ (found = name :: names ∨
      ∃ next more, t.walkLinks start depth ((name :: names, next) :: (names, location) :: outer) =
        .ok more ∧ found ∈ more) := by
  rw [walkLinks] at h
  obtain ⟨name, hname, part, hpart, hmem⟩ := exists_of_mem_flatMapM h hfound
  obtain ⟨e, hentry⟩ := Option.isSome_iff_exists.1 (mem_children_iff.1 hname)
  refine ⟨name, e, hentry, ?_⟩
  simp only [hentry] at hpart
  cases e with
  | file =>
      cases hpart
      exact .inl (List.mem_singleton.1 hmem)
  | directory =>
      simp only at hpart
      split at hpart
      · cases hpart
      · exact .inr ⟨_, part, hpart, hmem⟩
  | link target =>
      simp only at hpart
      split at hpart
      · cases hpart
      split at hpart
      · split at hpart
        · cases hpart
        · exact .inr ⟨_, part, hpart, hmem⟩
      · cases hpart
        exact .inl (List.mem_singleton.1 hmem)

theorem isName_of_walkLinks {depth : Nat} {names : List Bytes} {location : Location}
    {outer : List (List Bytes × Location)} (hnames : ∀ name ∈ names, IsName name)
    (h : t.walkLinks start depth ((names, location) :: outer) = .ok files) :
    ∀ found ∈ files, ∀ name ∈ found, IsName name := by
  induction depth generalizing names location outer files with
  | zero =>
      rw [walkLinks] at h
      cases h
      simp
  | succ depth ih =>
      intro found hfound
      obtain ⟨name, e, hentry, hlisted⟩ := exists_of_mem_walkLinks h hfound
      have hbelow : ∀ n ∈ name :: names, IsName n :=
        List.forall_mem_cons.2 ⟨(of_entry?_cons hentry).1, hnames⟩
      rcases hlisted with rfl | ⟨next, more, hmore, hfound⟩
      · exact hbelow
      · exact ih hbelow hmore found hfound

/-- Links followed or not, files are found by proper names. -/
theorem isName_of_walk {followLinks : Bool} {top : Location}
    (h : t.walk followLinks start top = .ok files) : ∀ found ∈ files, ∀ name ∈ found, IsName name := by
  cases followLinks with
  | true => exact isName_of_walkLinks (by simp) h
  | false =>
      intro found hfound
      rw [(walk_eq_ok h).1] at hfound
      exact isName_of_entry?_eq_some (mem_below_iff.1 hfound).2

end Tree

end Disk

/-! ## Routes of directories -/

open Disk (IsPlainName)

namespace Route

variable {r w : Route} {names others : List Bytes}

/-- Whether a route is that of a file in the directory with the given names below a base, the last
name first, with or without a layout. -/
structure DeclaredIn (r : Route) (names : List Bytes) : Prop where
  plain : ∀ name ∈ names, IsPlainName name
  made : ∃ engine layout,
    (ofDirectory engine r.source (RouteFile.directoryText names)).map (·.setLayout layout) = .ok r

namespace DeclaredIn

theorem canonical_eq (h : r.DeclaredIn names) :
    r.canonical = LogicalPath.ofDirectory (RouteFile.directoryText names) :=
  exists_ofDirectory_iff.1 h.made

/-- The logical path has the names of the directories as components, but for the groups. -/
theorem components_canonical (h : r.DeclaredIn names) : r.canonical.components =
    (names.reverse.map Utf8.decodeLossy).filter fun part => !LogicalPath.isGroup part := by
  have hparts : ∀ part ∈ names.reverse.map Utf8.decodeLossy, Text.IsPart part := by
    intro part hpart
    obtain ⟨name, hname, rfl⟩ := List.mem_map.1 hpart
    have hplain := h.plain name (List.mem_reverse.1 hname)
    exact Text.isPart_of_isPlainName hplain.encode_decodeLossy
  rw [h.canonical_eq, LogicalPath.components_ofDirectory, RouteFile.directoryText,
    LogicalPath.visible_intercalate hparts]

theorem isPlainName_of_mem (h : r.DeclaredIn names) {part : Text}
    (hpart : part ∈ r.canonical.components) : IsPlainName (Utf8.encode part) := by
  rw [h.components_canonical] at hpart
  obtain ⟨name, hname, rfl⟩ := List.mem_map.1 (List.mem_of_mem_filter hpart)
  exact (h.plain name (List.mem_reverse.1 hname)).encode_decodeLossy

theorem canonical_eq_iff (hr : r.DeclaredIn names) (hw : w.DeclaredIn others) :
    r.canonical = w.canonical ↔ r.canonical.components = w.canonical.components := by
  rw [hr.canonical_eq, hw.canonical_eq, LogicalPath.components_ofDirectory,
    LogicalPath.components_ofDirectory]
  exact LogicalPath.ofDirectory_eq_iff_visible

theorem canonical_eq_root_iff (h : r.DeclaredIn names) :
    r.canonical = ['/'] ↔ r.canonical.components = [] := by
  have hroot : ['/'] = LogicalPath.ofDirectory [] := rfl
  rw [hroot, h.canonical_eq, LogicalPath.components_ofDirectory]
  exact LogicalPath.ofDirectory_eq_iff_visible

end DeclaredIn

end Route

/-- The routes of a table are those of directories with plain names. -/
theorem Table.exists_declaredIn_of_ofDirectory {host : Host} {t : Disk.Tree} {o : Options}
    {base : Disk.Path} {table : Table} (h : ofDirectory host t o base = .ok table) {r : Route}
    (hr : r ∈ table.routes) : ∃ names, r.DeclaredIn names := by
  obtain ⟨root, top, files, _, hwalk, hroutes⟩ := exists_walk_of_ofDirectory h
  obtain ⟨found, hfound, hmade⟩ := hroutes r hr
  have hnames := Disk.Tree.isName_of_walk hwalk found hfound
  refine ⟨found.tail, fun name hname => (hnames name (List.mem_of_mem_tail hname)).isPlainName, ?_⟩
  exact Route.exists_ofDirectory_iff.2 (routeOf_eq_ok hmade).2.1

/-! ## Output directories -/

namespace Route

variable {r w : Route} {names others : List Bytes}

theorem DeclaredIn.components_outputDirectory (h : r.DeclaredIn names) (out : Disk.Path) :
    (r.outputDirectory out).components =
      out.components ++ r.canonical.components.map fun part => .name (Utf8.encode part) := by
  have hplain : ∀ name ∈ r.canonical.components.map Utf8.encode, IsPlainName name :=
    List.forall_mem_map.2 fun _ => h.isPlainName_of_mem
  have hjoined : r.outputDirectory out = (r.canonical.components.map Utf8.encode).foldl
      (fun directory name => directory.join ⟨name⟩) out := by
    rw [outputDirectory, List.foldl_map]
    rfl
  rw [hjoined, Disk.Path.components_foldl_join hplain, List.map_map]
  rfl

/-- The components behind the output root can be read back. -/
theorem map_name_injective :
    Function.Injective (List.map fun part => Disk.Component.name (Utf8.encode part)) := by
  apply List.map_injective_iff.2
  intro a b h
  exact Utf8.encode_injective (Disk.Component.name.inj h)

/-- The output directory of a route extends `out` by the components of its logical path, which are
the directories of its file but for the groups.  It lies inside `out`, is `out` itself for the root
only, and is that of another route exactly if both have the same logical path. -/
theorem outputDirectory_extends (hr : r.DeclaredIn names) (hw : w.DeclaredIn others)
    (out : Disk.Path) :
    (r.canonical.components =
      (names.reverse.map Utf8.decodeLossy).filter fun part => !LogicalPath.isGroup part) ∧
    ((r.outputDirectory out).components =
      out.components ++ r.canonical.components.map fun part => .name (Utf8.encode part)) ∧
    (r.outputDirectory out).StartsWith out ∧
    ((r.outputDirectory out).Same out ↔ r.canonical = ['/']) ∧
    ((r.outputDirectory out).Same (w.outputDirectory out) ↔ r.canonical = w.canonical) := by
  have hcomponents := hr.components_outputDirectory out
  refine ⟨hr.components_canonical, hcomponents, ?_, ?_, ?_⟩
  · rw [Disk.Path.StartsWith, hcomponents]
    exact List.prefix_append ..
  · rw [Disk.Path.Same, hcomponents, List.append_right_eq_self, List.map_eq_nil_iff,
      hr.canonical_eq_root_iff]
  · rw [Disk.Path.Same, hcomponents, hw.components_outputDirectory, List.append_cancel_left_eq,
      map_name_injective.eq_iff, hr.canonical_eq_iff hw]

/-- A tree with a cart in two groups. -/
def cartTree : Disk.Tree :=
  ["/app/(shop)/cart/index.tsx", "/app/(club)/cart/index.tsx"].foldl
    (fun t path => t.addFile (.ofText path.toList)) .empty

def shopCart : Route where
  source := .ofText "/app/(shop)/cart/index.tsx".toList
  canonical := "/cart".toList
  segments := [.literal "cart".toList]
  layout := none
  segments_eq := by decide +kernel

def clubCart : Route := { shopCart with source := .ofText "/app/(club)/cart/index.tsx".toList }

def cartOutput : Disk.Path := .ofText "./dist/".toList

/-- Both carts are written to one directory, which is not the root of the output. -/
theorem outputDirectory_extends_cart :
    Table.ofDirectory .plain cartTree {} (.ofText "/app".toList) =
      .ok ⟨[clubCart, shopCart], some (.ofText "/app".toList)⟩ ∧
    (∃ names, shopCart.DeclaredIn names) ∧ (∃ names, clubCart.DeclaredIn names) ∧
    (shopCart.outputDirectory cartOutput).components =
      [.current, .name (Utf8.encode "dist".toList), .name (Utf8.encode "cart".toList)] ∧
    ¬ (shopCart.outputDirectory cartOutput).Same cartOutput ∧
    (shopCart.outputDirectory cartOutput).Same (clubCart.outputDirectory cartOutput) := by
  have hbuilt : Table.ofDirectory .plain cartTree {} (.ofText "/app".toList) =
      .ok ⟨[clubCart, shopCart], some (.ofText "/app".toList)⟩ := by cbv
  obtain ⟨names, hshop⟩ := Table.exists_declaredIn_of_ofDirectory hbuilt
    (List.mem_cons_of_mem clubCart (List.mem_cons_self ..))
  obtain ⟨others, hclub⟩ := Table.exists_declaredIn_of_ofDirectory hbuilt (List.mem_cons_self ..)
  obtain ⟨_, hcomponents, _, hroot, hsame⟩ := outputDirectory_extends hshop hclub cartOutput
  refine ⟨hbuilt, ⟨names, hshop⟩, ⟨others, hclub⟩, ?_, ?_, hsame.2 rfl⟩
  · rw [hcomponents]
    decide +kernel
  · rw [hroot]
    decide +kernel

end Route

end FileRouting
