import FileRouting.Disk.Path
import FileRouting.Options.Settings
import FileRouting.Proofs.Decomposition
import FileRouting.Proofs.Utf8

/-! # Names of layout files

Route files are recognised by taking their name apart, layout files by an expression that is looked
for at the end of a whole path.  Behind a slash the two come to the same, as long as some extension
is enabled: since stems and extensions have no slash in them, the expression can only begin at the
last slash of the path, and then it describes the whole name (`isLayoutPath_append_slash`).

A set of extensions need not hold any extension to pass for non-empty, because a bit of no meaning
is enough.  The expression then has nothing to choose from, and the stem with its dot alone names a
layout, which route files have no counterpart of. -/

namespace FileRouting

namespace Expr

theorem any_runs_iff {e : Expr} {t : Text} : (e.runs t).any (·.2 = []) ↔ e.Describes t := by
  simp only [List.any_eq_true, Prod.exists, decide_eq_true_eq]
  constructor
  · rintro ⟨taken, _, hmem, rfl⟩
    obtain ⟨rfl, hdescribes⟩ := mem_runs_iff.1 hmem
    rwa [List.append_nil]
  · intro h
    exact ⟨t, [], mem_runs_iff.2 ⟨(List.append_nil t).symm, h⟩, rfl⟩

theorem matchesEnd_iff {e : Expr} {t : Text} :
    e.matchesEnd t ↔ ∃ front back, t = front ++ back ∧ e.Describes back := by
  induction t with
  | nil =>
      rw [matchesEnd, any_runs_iff]
      constructor
      · exact fun h => ⟨[], [], rfl, h⟩
      · rintro ⟨front, back, heq, h⟩
        rwa [(List.append_eq_nil_iff.1 heq.symm).2] at h
  | cons c t ih =>
      rw [matchesEnd, Bool.or_eq_true, any_runs_iff, ih]
      constructor
      · rintro (h | ⟨front, back, rfl, h⟩)
        · exact ⟨[], c :: t, rfl, h⟩
        · exact ⟨c :: front, back, rfl, h⟩
      · rintro ⟨front, back, heq, h⟩
        cases front with
        | nil =>
            rw [List.nil_append] at heq
            exact .inl (heq ▸ h)
        | cons d front =>
            rw [List.cons_append, List.cons.injEq] at heq
            exact .inr ⟨front, back, heq.2, h⟩

end Expr

/-- What stands behind the last slash of a text is determined by the text. -/
theorem Text.eq_of_append_slash {a b c d : Text} (hb : '/' ∉ b) (hd : '/' ∉ d)
    (h : a ++ '/' :: b = c ++ '/' :: d) : b = d := by
  have hpieces := congrArg pieces h
  rw [pieces_append_slash, pieces_append_slash, pieces_of_notMem hb, pieces_of_notMem hd] at hpieces
  simpa using (List.append_inj' hpieces rfl).2

namespace Extension

theorem slash_notMem_name (e : Extension) : '/' ∉ e.name := by
  cases e <;> decide

theorem ofName?_eq_some_iff {t : Text} {e : Extension} : ofName? t = some e ↔ t = e.name := by
  constructor
  · intro h
    have hname := List.find?_some h
    simpa [eq_comm] using hname
  · rintro rfl
    cases e <;> decide

end Extension

namespace Extensions

theorem mem_names {s : Extensions} {t : Text} :
    t ∈ s.names ↔ ∃ e, s.contains e ∧ t = e.name := by
  simp only [names, List.mem_map, mem_toList, eq_comm]

theorem names_eq_nil_iff {s : Extensions} : s.names = [] ↔ ∀ e, s.contains e = false := by
  rw [List.eq_nil_iff_forall_not_mem]
  simp only [mem_names, not_exists, not_and, Bool.eq_false_iff]
  exact ⟨fun h e he => h e.name e he rfl, fun h _ e he _ => h e he⟩

end Extensions

namespace Options

/-- Whether a file has the name of a layout: the stem of layouts, a dot, and an extension of the
set. -/
def NamesLayout (o : Options) (file : Text) : Prop :=
  ∃ e, o.extensions.contains e ∧ file = o.layoutFileStem ++ '.' :: e.name

theorem isFileOf_iff {stem : Text} {s : Extensions} {file : Text} :
    isFileOf stem s file ↔ ∃ e, s.contains e ∧ file = stem ++ '.' :: e.name := by
  unfold isFileOf
  split
  · next ending hending =>
    obtain ⟨behind, hstem, hdot⟩ := Option.bind_eq_some_iff.1 hending
    obtain rfl := dropFront?_eq_some_iff.1 hdot
    obtain rfl := dropFront?_eq_some_iff.1 hstem
    simp only [Option.any_eq_true, Extension.ofName?_eq_some_iff, List.append_cancel_left_eq,
      List.cons_append, List.nil_append, List.cons.injEq, true_and]
    exact exists_congr fun _ => and_comm
  · next hnone =>
    constructor
    · intro h
      cases h
    · rintro ⟨e, _, rfl⟩
      have hsome : (dropFront? stem (stem ++ '.' :: e.name)).bind (dropFront? ['.']) =
          some e.name := by
        rw [dropFront?_append]
        exact dropFront?_append ['.'] e.name
      rw [hsome] at hnone
      cases hnone

theorem slash_notMem_of_checkStem {field : StemField} {stem : Text}
    (h : checkStem field stem = .ok ()) : '/' ∉ stem := by
  unfold checkStem at h
  split at h
  · cases h
  split at h
  · cases h
  · next hnone =>
    intro hmem
    have hfault := List.find?_eq_none.1 hnone '/' hmem
    exact hfault rfl

/-- What valid options that look for layouts have passed. -/
theorem of_validate {o : Options} (h : o.validate = .ok ()) (hlayouts : o.discoverLayouts) :
    o.extensions.isEmpty = false ∧ '/' ∉ o.layoutFileStem := by
  unfold validate at h
  split at h
  · cases h
  split at h
  · cases h
  · next hextensions =>
    exact ⟨by simpa using hextensions, slash_notMem_of_checkStem h⟩

theorem describes_layoutExpr_iff {o : Options} {taken : Text} :
    o.layoutExpr.Describes taken ↔ ∃ file, taken = '/' :: file ∧
      (o.NamesLayout file ∨ o.extensions.names = [] ∧ file = o.layoutFileStem ++ ['.']) := by
  have hends : ∀ ending, (Expr.oneOf o.extensions.names).Describes ending ↔
      ending ∈ o.extensions.names ∨ o.extensions.names = [] ∧ ending = [] := by
    intro ending
    by_cases hnames : o.extensions.names = []
    · simp [hnames, Expr.oneOf, Expr.Describes]
    · simp [hnames, Expr.describes_oneOf_iff]
  simp only [layoutExpr, Expr.Describes, hends, NamesLayout, Extensions.mem_names]
  constructor
  · rintro ⟨_, ending, rfl, rfl, ⟨e, he, rfl⟩ | ⟨hnames, rfl⟩⟩
    · exact ⟨_, by simp, .inl ⟨e, he, rfl⟩⟩
    · exact ⟨_, by simp, .inr ⟨hnames, rfl⟩⟩
  · rintro ⟨_, rfl, ⟨e, he, rfl⟩ | ⟨hnames, rfl⟩⟩
    · exact ⟨_, e.name, by simp, rfl, .inl ⟨e, he, rfl⟩⟩
    · exact ⟨_, [], by simp, rfl, .inr ⟨hnames, rfl⟩⟩

theorem isLayoutPath_append_slash {o : Options} (hstem : '/' ∉ o.layoutFileStem) {file : Text}
    (hfile : '/' ∉ file) (directory : Text) :
    o.isLayoutPath (directory ++ '/' :: file) ↔
      o.NamesLayout file ∨ o.extensions.names = [] ∧ file = o.layoutFileStem ++ ['.'] := by
  rw [isLayoutPath, Expr.matchesEnd_iff]
  simp only [describes_layoutExpr_iff]
  constructor
  · rintro ⟨front, _, heq, other, rfl, hother⟩
    have hslash : '/' ∉ other := by
      rcases hother with ⟨e, _, rfl⟩ | ⟨_, rfl⟩
      · simp [hstem, e.slash_notMem_name]
      · simp [hstem]
    rwa [Text.eq_of_append_slash hfile hslash heq]
  · intro h
    exact ⟨directory, '/' :: file, rfl, file, rfl, h⟩

/-- Which entries of a directory are layouts by their path, whatever bytes the directory has. -/
theorem isLayoutPath_display {o : Options} (hstem : '/' ∉ o.layoutFileStem) {file : Text}
    (hfile : '/' ∉ file) (directory : Bytes) :
    o.isLayoutPath (Disk.Path.display ⟨directory ++ Disk.slash :: Utf8.encode file⟩) ↔
      o.NamesLayout file ∨ o.extensions.names = [] ∧ file = o.layoutFileStem ++ ['.'] := by
  have hdisplay : Disk.Path.display ⟨directory ++ Disk.slash :: Utf8.encode file⟩ =
      Utf8.decodeLossy directory ++ '/' :: file := by
    rw [Disk.Path.display, Disk.slash, Utf8.decodeLossy_append_slash, Utf8.decodeLossy_encode]
  rw [hdisplay]
  exact isLayoutPath_append_slash hstem hfile _

/-- Layouts are recognised by the rule of route files, and by their stem with a dot behind it if no
extension is enabled. -/
theorem isLayoutPath_iff (o : Options) (hvalid : o.validate = .ok ())
    (hlayouts : o.discoverLayouts = true) (file : Text) (hfile : '/' ∉ file) :
    (∀ directory : Text, o.isLayoutPath (directory ++ '/' :: file) ↔
      o.NamesLayout file ∨ (∀ e, o.extensions.contains e = false) ∧
        file = o.layoutFileStem ++ ['.']) ∧
    (∀ directory : Disk.Path,
      o.isLayoutPath (Disk.Path.display ⟨directory.bytes ++ Disk.slash :: Utf8.encode file⟩) ↔
        o.NamesLayout file ∨ (∀ e, o.extensions.contains e = false) ∧
          file = o.layoutFileStem ++ ['.']) ∧
    ({ o with routeFileStem := o.layoutFileStem }.declaresRoute file ↔ o.NamesLayout file) := by
  obtain ⟨_, hstem⟩ := of_validate hvalid hlayouts
  simp only [← Extensions.names_eq_nil_iff]
  refine ⟨isLayoutPath_append_slash hstem hfile, ?_, isFileOf_iff⟩
  exact fun directory => isLayoutPath_display hstem hfile directory.bytes

/-- Options with a stem of characters that mean something in an expression, and a bit of no meaning
among the extensions. -/
def oddLayouts : Options := { layoutFileStem := "(l|a)+".toList, extensions := ⟨0xF2⟩ }

theorem isLayoutPath_iff_oddLayouts :
    oddLayouts.validate = .ok () ∧ oddLayouts.discoverLayouts = true ∧
    '/' ∉ "(l|a)+.jsx".toList ∧ '/' ∉ "(l|a)+.".toList ∧
    oddLayouts.isLayoutPath ("/app/l.jsx".toList ++ '/' :: "(l|a)+.jsx".toList) = true ∧
    oddLayouts.isLayoutPath ("/app/l.jsx".toList ++ '/' :: "(l|a)+.".toList) = false := by
  have hvalid : oddLayouts.validate = .ok () := by decide
  have hnamed : '/' ∉ "(l|a)+.jsx".toList := by decide
  have hdotted : '/' ∉ "(l|a)+.".toList := by decide
  have hjsx : oddLayouts.extensions.contains .jsx := by decide
  refine ⟨hvalid, rfl, hnamed, hdotted, ?_, ?_⟩
  · exact ((isLayoutPath_iff oddLayouts hvalid rfl _ hnamed).1 _).2 (.inl ⟨.jsx, hjsx, by decide⟩)
  · rw [Bool.eq_false_iff]
    intro haccepted
    rcases ((isLayoutPath_iff oddLayouts hvalid rfl _ hdotted).1 _).1 haccepted with
      ⟨e, _, hname⟩ | ⟨hnone, _⟩
    · cases e <;> revert hname <;> decide
    · rw [hnone .jsx] at hjsx
      cases hjsx

/-- Options whose set of extensions consists of bits of no meaning. -/
def noExtension : Options := { extensions := ⟨0xF0⟩ }

/-- Options that pass for valid, also when they are read from settings, by which a file without an
extension is a layout. -/
theorem isLayoutPath_noExtension :
    noExtension.validate = .ok () ∧ noExtension.discoverLayouts = true ∧
    Options.read? noExtension.write = some noExtension ∧
    '/' ∉ "layout.".toList ∧
    ¬ (noExtension.isLayoutPath ("/app".toList ++ '/' :: "layout.".toList) ↔
      noExtension.NamesLayout "layout.".toList) := by
  refine ⟨by decide, rfl, by decide +kernel, by decide, ?_⟩
  intro hiff
  obtain ⟨e, _, hname⟩ := hiff.1 (by decide)
  cases e <;> revert hname <;> decide

end Options

end FileRouting
