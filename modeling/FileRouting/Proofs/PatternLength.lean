import FileRouting.Proofs.PatternSource
import FileRouting.Proofs.SegmentGrammar
import FileRouting.Proofs.Sites

/-! # Length of written patterns

The written form of a pattern is at most a few times as long as the logical path that it is made
from (`Segment.length_fragment_le`, `Pattern.length_source_le`).  File systems limit the paths of
directories, and so the patterns of routes that are declared in a directory are at most
`longestPattern` characters long: an engine that takes patterns up to that length
(`Engine.TakesUpTo`) refuses none of them (`Site.Reads.takes`). -/

namespace FileRouting

/-- Lists of parts that are related one by one are written in related lengths. -/
theorem length_flatMap_le_of_forall₂ {α β γ δ : Type} {R : α → β → Prop} {f : α → List γ}
    {g : β → List δ} {factor : Nat} {as : List α} {bs : List β} (h : List.Forall₂ R as bs)
    (hpart : ∀ a b, R a b → (g b).length ≤ factor * (f a).length) :
    (bs.flatMap g).length ≤ factor * (as.flatMap f).length := by
  induction h with
  | nil => exact Nat.zero_le _
  | cons hfirst _ ih =>
      rw [List.flatMap_cons, List.flatMap_cons, List.length_append, List.length_append, Nat.mul_add]
      exact Nat.add_le_add (hpart _ _ hfirst) ih

theorem length_escape_le (t : Text) : (escape t).length ≤ 2 * t.length := by
  induction t with
  | nil => exact Nat.zero_le _
  | cons c t ih =>
      rw [escape_cons, List.length_append, List.length_cons]
      split
      · rw [List.length_cons, List.length_singleton]
        omega
      · rw [List.length_singleton]
        omega

/-! ## Fragments -/

namespace Segment

theorem length_source_oneOf_lt {values : List Text} (hne : values ≠ []) :
    (Expr.oneOf values).source.length < 2 * (barred values).length := by
  have hlength : (values.flatMap ('|' :: escape ·)).length ≤ 2 * (barred values).length := by
    apply length_flatMap_le_of_forall₂ (List.forall₂_same.2 fun _ _ => rfl)
    rintro value _ rfl
    have hescape := length_escape_le value
    simp only [List.length_cons]
    omega
  rw [← Expr.source_oneOf hne, List.length_cons] at hlength
  omega

theorem length_fragment_choice (name : Text) (values : List Text) :
    (choice name values).fragment.length = (Expr.oneOf values).source.length + 6 := by
  have hfragment := congrArg List.length (fragment_choice_append name values [])
  rw [List.append_nil] at hfragment
  rw [hfragment]
  simp

/-- A fragment is at most five times as long as the component that declares its segment. -/
theorem length_fragment_le {raw : Text} {s : Segment} (h : read? raw = some s) :
    s.fragment.length ≤ 5 * raw.length := by
  rcases read?_eq_some_iff.1 h with ⟨_, _, rfl⟩ | ⟨marker, name, modifier, _, hname, hmodifier, rfl⟩
  · have hescape := length_escape_le raw
    have hfragment : (literal raw).fragment = escape raw := rfl
    rw [hfragment]
    omega
  · have hpositive : 0 < name.length := List.length_pos_of_ne_nil hname.1
    have hraw : (inBrackets (marker ++ name ++ modifier)).length =
        marker.length + name.length + modifier.length + 2 := by
      simp only [inBrackets, List.length_append, List.length_cons, List.length_nil]
    rw [hraw]
    cases hmodifier with
    | nothing =>
        have hfragment : (wildcard name).fragment.length = 7 := rfl
        omega
    | star =>
        have hfragment : (wildcard name).fragment.length = 7 := rfl
        omega
    | stars =>
        have hfragment : (rest name).fragment.length = 4 := rfl
        omega
    | number =>
        -- the factor is needed here: a component of ten characters can do
        have hfragment : (number name).fragment.length = 41 := rfl
        have hmodifier : (':' :: "number".toList).length = 7 := rfl
        omega
    | choice hne _ =>
        have hvalues := length_source_oneOf_lt hne
        rw [length_fragment_choice, List.length_cons]
        omega

end Segment

/-! ## Patterns -/

theorem Text.length_slashed_parts_le (path : Text) :
    (slashed (LogicalPath.parts path)).length ≤ path.length + 1 := by
  have hcomponents : (slashed path.components).length ≤ path.length + 1 := by
    rw [← List.length_cons, ← slashed_pieces]
    exact (List.filter_sublist.flatMap _).length_le
  unfold LogicalPath.parts
  split
  · exact Nat.le_add_left ..
  · exact hcomponents

/-- The written pattern of a logical path is at most about five times as long as the path. -/
theorem Pattern.length_source_le {path : Text} {segments : List Segment}
    (h : Segment.ofLogicalPath path = .ok segments) :
    (ofSegments segments).source.length ≤ 5 * path.length + 7 := by
  have hread := Segment.forall₂_read?_parts h
  have hne : segments ≠ [] := by
    obtain ⟨declared, _, rfl, _⟩ := Segment.ofLogicalPath_eq_ok h
    exact Segment.orRoot_ne_nil declared
  have hfragments : (Text.slashed (segments.map Segment.fragment)).length ≤
      5 * (Text.slashed (LogicalPath.parts path)).length := by
    rw [Text.slashed, List.flatMap_map]
    apply length_flatMap_le_of_forall₂ hread
    intro raw s hs
    have hfragment := Segment.length_fragment_le hs
    simp only [List.length_cons]
    omega
  have hparts := Text.length_slashed_parts_le path
  rw [source_ofSegments hne]
  simp only [List.cons_append, List.length_cons, List.length_append, List.length_nil]
  omega

/-! ## Patterns of routes in a directory -/

/-- The length that patterns of routes in a directory do not exceed. -/
def longestPattern : Nat := 5 * Disk.pathLimit + 7

/-- Whether an engine takes all written patterns of segments up to a length. -/
def Engine.TakesUpTo (engine : Engine) (limit : Nat) : Prop :=
  ∀ segments : List Segment, (Pattern.ofSegments segments).source.length ≤ limit →
    engine.Takes (Pattern.ofSegments segments).source

theorem Utf8.length_le_length_encode (t : Text) : t.length ≤ (encode t).length := by
  induction t with
  | nil => exact Nat.zero_le _
  | cons c t ih =>
      have hpositive := Char.utf8Size_pos c
      rw [encode_cons, List.length_append, List.length_cons, String.length_utf8EncodeChar]
      omega

theorem Disk.Path.length_slashed_parts_le {p : Path} (h : p.isAbsolute) :
    (slashed p.parts).length ≤ p.bytes.length := by
  obtain ⟨body, _, hbytes, hpieces⟩ := exists_body h
  rw [hbytes, parts_of_pieces hpieces]
  exact (List.filter_sublist.flatMap _).length_le

theorem Disk.Path.length_le_of_fault? {p : Path} (h : p.fault? = none) :
    p.bytes.length ≤ pathLimit := by
  unfold fault? at h
  split at h
  · cases h
  split at h
  · cases h
  · next hlimit => exact Nat.le_of_not_lt hlimit

namespace Site

variable {s : Site} {root : Disk.Path}

theorem length_slashed_visible_le (hroot : root.isAbsolute)
    (hnames : ∀ name ∈ s.outer, Disk.IsName name) :
    (Text.slashed s.visible).length ≤ (root.descend s.outer).bytes.length := by
  have hvisible : (Text.slashed s.visible).length ≤ (Text.slashed s.directories).length :=
    (List.filter_sublist.flatMap _).length_le
  have hparts := Disk.Path.length_slashed_parts_le (Disk.Path.isAbsolute_descend hroot s.outer)
  rw [Disk.Path.parts_descend hroot hnames, Disk.Path.slashed_append, List.length_append] at hparts
  have houter : s.outer.reverse = s.directories.map Utf8.encode := List.reverse_reverse _
  rw [houter] at hparts
  have hencoded : (Text.slashed s.directories).length ≤
      1 * (Disk.Path.slashed (s.directories.map Utf8.encode)).length := by
    rw [Disk.Path.slashed, List.flatMap_map]
    apply length_flatMap_le_of_forall₂ (List.forall₂_same.2 fun _ _ => rfl)
    rintro part _ rfl
    have hlength := Utf8.length_le_length_encode part
    simp only [List.length_cons]
    omega
  omega

/-- The logical path at a site is not longer than the path of its directory. -/
theorem length_canonical_le (hroot : root.isAbsolute)
    (hnames : ∀ name ∈ s.outer, Disk.IsName name) :
    s.canonical.length ≤ (root.descend s.outer).bytes.length := by
  by_cases hne : s.visible = []
  · -- the root, which is written with the slash that every absolute path starts with
    have hroot' := Disk.Path.isAbsolute_descend hroot s.outer
    have hbytes : (root.descend s.outer).bytes ≠ [] := by
      intro hnil
      simp [Disk.Path.isAbsolute, hnil] at hroot'
    rw [canonical, hne]
    exact List.length_pos_of_ne_nil hbytes
  · rw [canonical, ← Text.slashed_eq_intercalate hne]
    exact length_slashed_visible_le hroot hnames

variable {t : Disk.Tree} {top : Disk.Location} {e : Disk.Entry} {engine : Engine}
  {segments : List Segment}

/-- Below a directory that can be walked, no site has a pattern that is too long. -/
theorem Reads.takes (h : s.Reads segments) (hwalk : t.Walkable root top)
    (hentry : t.entry? (s.names ++ top) = some e) (hengine : engine.TakesUpTo longestPattern) :
    engine.Takes (Pattern.ofSegments segments).source := by
  apply hengine
  -- the directory can be listed, so that its path keeps the limit of the file system
  have hread : Segment.ofLogicalPath s.canonical = .ok segments :=
    (ofLogicalPath_canonical_iff (isPart_of_entry?_eq_some hentry)).2 h
  have hcanonical : s.canonical.length ≤ (root.descend s.outer).bytes.length := by
    apply length_canonical_le hwalk.absolute
    exact fun name hname =>
      Disk.Tree.isName_of_entry?_eq_some hentry name (List.mem_cons_of_mem _ hname)
  have hlimit := Disk.Path.length_le_of_fault?
    (hwalk.clear s.outer (Disk.Tree.of_entry?_cons hentry).2)
  have hsource := Pattern.length_source_le hread
  rw [longestPattern]
  omega

end Site

end FileRouting
