import FileRouting.Proofs.LogicalPaths
import FileRouting.Proofs.Parameters

/-! # Which logical paths are routes

A logical path is refused for its first component that cannot be read, wherever a name is repeated,
and only if all can be read for the first name that is.  `Segment.Refused` says so by positions, and
reading fails with nothing else (`Segment.ofLogicalPath_eq_error_iff`): the components are read from
left to right, and then the names are gone through from left to right, each time up to the first
fault.  A path that has been read is a route if the engine takes its pattern (`Engine.TakesPath`).
-/

namespace FileRouting

namespace Segment

theorem names_orRoot (segments : List Segment) : names (orRoot segments) = names segments := by
  cases segments <;> rfl

theorem firstRepeated?_cons_eq_some_iff {before names : List Text} {first name : Text} :
    firstRepeated? before (first :: names) = some name ↔ first ∈ before ∧ first = name ∨
      first ∉ before ∧ firstRepeated? (first :: before) names = some name := by
  rw [firstRepeated?]
  split
  · next hmem => simp [hmem]
  · next hmem => simp [hmem]

/-- The name found is the first that stands among those before it. -/
theorem firstRepeated?_eq_some_iff {before names : List Text} {name : Text} :
    firstRepeated? before names = some name ↔ ∃ front back, names = front ++ name :: back ∧
      firstRepeated? before front = none ∧ (name ∈ front ∨ name ∈ before) := by
  induction names generalizing before with
  | nil => simp [firstRepeated?]
  | cons first names ih =>
      -- a name that is passed over moves from the front of the split to those before it
      have hmoved : ∀ front : List Text,
          name ∈ first :: front ∨ name ∈ before ↔ name ∈ front ∨ name ∈ first :: before := by
        intro front
        rw [List.mem_cons, List.mem_cons, or_assoc, or_left_comm]
      rw [firstRepeated?_cons_eq_some_iff, ih]
      constructor
      · rintro (⟨hmem, rfl⟩ | ⟨hmem, front, back, rfl, hfront, hname⟩)
        · exact ⟨[], names, rfl, rfl, .inr hmem⟩
        · exact ⟨first :: front, back, rfl, firstRepeated?_cons_eq_none_iff.2 ⟨hmem, hfront⟩,
            (hmoved front).2 hname⟩
      · rintro ⟨front, back, heq, hfront, hname⟩
        cases front with
        | nil =>
            obtain ⟨rfl, rfl⟩ := List.cons.inj heq
            exact .inl ⟨hname.resolve_left List.not_mem_nil, rfl⟩
        | cons other front =>
            obtain ⟨rfl, rfl⟩ := List.cons.inj heq
            obtain ⟨hmem, hlater⟩ := firstRepeated?_cons_eq_none_iff.1 hfront
            exact .inr ⟨hmem, front, back, rfl, hlater, (hmoved front).1 hname⟩

theorem names_eq_append_cons {segments : List Segment} {front back : List Text} {name : Text}
    (h : names segments = front ++ name :: back) : ∃ before s after,
      segments = before ++ s :: after ∧ s.name? = some name ∧ names before = front := by
  obtain ⟨left, right, rfl, hleft, hright⟩ := List.filterMap_eq_append_iff.1 h
  obtain ⟨literals, s, after, rfl, hliterals, hname, _⟩ := List.filterMap_eq_cons_iff.1 hright
  refine ⟨left ++ literals, s, after, (List.append_assoc ..).symm, hname, ?_⟩
  rw [names, List.filterMap_append, hleft, List.filterMap_eq_nil_iff.2 hliterals, List.append_nil]

/-- Why a logical path is no route, and what is said about it: its first component that cannot be
read, or else the name of the first segment that is called like one before it. -/
inductive Refused (path : Text) : SegmentError → Prop
  | unreadable {before after : List Text} {raw : Text}
      (hsplit : path.components = before ++ raw :: after)
      (hbefore : ∀ part ∈ before, ∃ s, read? part = some s) (hraw : read? raw = none) :
      Refused path (.invalidParameter raw path)
  | repeated {declared before after : List Segment} {s : Segment} {name : Text}
      (hread : List.Forall₂ (fun raw s => read? raw = some s) path.components declared)
      (hsplit : declared = before ++ s :: after) (hfirst : (names before).Nodup)
      (hname : s.name? = some name) (hmem : name ∈ names before) :
      Refused path (.repeatedName name path)

theorem mapM_read_eq_error_iff {path : Text} {parts : List Text} {e : SegmentError} :
    parts.mapM (read path) = .error e ↔ ∃ before raw after, parts = before ++ raw :: after ∧
      (∀ part ∈ before, ∃ s, read? part = some s) ∧ read? raw = none ∧
      e = .invalidParameter raw path := by
  simp only [mapM_eq_error_iff, read_eq_ok_iff, read_eq_error_iff]

theorem distinct_eq_error_iff {path : Text} {declared : List Segment} {e : SegmentError} :
    distinct path (orRoot declared) = .error e ↔
      ∃ name, firstRepeated? [] (names declared) = some name ∧ e = .repeatedName name path := by
  rw [distinct, names_orRoot]
  cases firstRepeated? [] (names declared) <;> simp [eq_comm]

theorem firstRepeated?_names_eq_some_iff {declared : List Segment} {name : Text} :
    firstRepeated? [] (names declared) = some name ↔ ∃ before s after,
      declared = before ++ s :: after ∧ (names before).Nodup ∧ s.name? = some name ∧
        name ∈ names before := by
  rw [firstRepeated?_eq_some_iff]
  simp only [firstRepeated?_eq_none_iff, List.not_mem_nil, not_false_eq_true, implies_true, and_true,
    or_false]
  constructor
  · rintro ⟨front, back, hnames, hnodup, hmem⟩
    obtain ⟨before, s, after, rfl, hname, rfl⟩ := names_eq_append_cons hnames
    exact ⟨before, s, after, rfl, hnodup, hname, hmem⟩
  · rintro ⟨before, s, after, rfl, hnodup, hname, hmem⟩
    refine ⟨names before, names after, ?_, hnodup, hmem⟩
    rw [names, List.filterMap_append, List.filterMap_cons, hname]
    rfl

theorem ofLogicalPath_eq_error_iff {path : Text} {e : SegmentError} :
    ofLogicalPath path = .error e ↔ Refused path e := by
  constructor
  · intro h
    unfold ofLogicalPath at h
    split at h
    · next declared hread =>
      -- all components have been read, so that only a repeated name can be wrong
      obtain ⟨name, hrepeated, rfl⟩ := distinct_eq_error_iff.1 h
      obtain ⟨before, s, after, hsplit, hnodup, hname, hmem⟩ :=
        firstRepeated?_names_eq_some_iff.1 hrepeated
      exact .repeated ((mapM_eq_ok_iff.1 hread).imp fun _ _ => read_eq_ok_iff.1) hsplit hnodup hname
        hmem
    · next e' hread =>
      cases h
      obtain ⟨before, raw, after, hsplit, hbefore, hraw, rfl⟩ := mapM_read_eq_error_iff.1 hread
      exact .unreadable hsplit hbefore hraw
  · intro h
    cases h with
    | unreadable hsplit hbefore hraw =>
        rw [ofLogicalPath, mapM_read_eq_error_iff.2 ⟨_, _, _, hsplit, hbefore, hraw, rfl⟩]
    | repeated hread hsplit hfirst hname hmem =>
        rw [ofLogicalPath, mapM_eq_ok_iff.2 (hread.imp fun _ _ => read_eq_ok_iff.2)]
        exact distinct_eq_error_iff.2
          ⟨_, firstRepeated?_names_eq_some_iff.2 ⟨_, _, _, hsplit, hfirst, hname, hmem⟩, rfl⟩

/-! ## Segments -/

/-- A logical path can be read if its components all read as segments and no name is repeated. -/
theorem ofLogicalPath_eq_ok_iff {path : Text} {segments : List Segment} :
    ofLogicalPath path = .ok segments ↔
      ∃ declared, List.Forall₂ (fun raw s => read? raw = some s) path.components declared ∧
        segments = orRoot declared ∧ (names declared).Nodup := by
  constructor
  · intro h
    obtain ⟨declared, hread, rfl, hdistinct⟩ := ofLogicalPath_eq_ok h
    rw [firstRepeated?_eq_none_iff, names_orRoot] at hdistinct
    exact ⟨declared, hread, rfl, hdistinct.1⟩
  · rintro ⟨declared, hread, rfl, hnodup⟩
    have hmapM : path.components.mapM (read path) = .ok declared :=
      mapM_eq_ok_iff.2 (hread.imp fun _ _ => read_eq_ok_iff.2)
    have hdistinct : firstRepeated? [] (names (orRoot declared)) = none := by
      rw [firstRepeated?_eq_none_iff, names_orRoot]
      exact ⟨hnodup, fun _ _ => List.not_mem_nil⟩
    rw [ofLogicalPath, hmapM]
    simp only [distinct, hdistinct]

/-- The name that a component declares, if it declares a parameter. -/
def declaredName? (raw : Text) : Option Text := (read? raw).bind name?

theorem names_eq_of_forall₂ {parts : List Text} {declared : List Segment}
    (h : List.Forall₂ (fun raw s => read? raw = some s) parts declared) :
    names declared = parts.filterMap declaredName? := by
  induction h with
  | nil => rfl
  | @cons raw s parts declared hfirst _ ih =>
      have hname : declaredName? raw = s.name? := by rw [declaredName?, hfirst, Option.bind_some]
      rw [names, List.filterMap_cons, List.filterMap_cons, hname]
      cases s.name? with
      | none => exact ih
      | some name => exact congrArg (name :: ·) ih

theorem exists_ofLogicalPath_eq_ok_iff {path : Text} :
    (∃ segments, ofLogicalPath path = .ok segments) ↔
      (∀ raw ∈ path.components, ∃ s, read? raw = some s) ∧
        (path.components.filterMap declaredName?).Nodup := by
  have hreads : (∀ raw ∈ path.components, ∃ s, read? raw = some s) ↔
      ∃ declared, List.Forall₂ (fun raw s => read? raw = some s) path.components declared := by
    simp only [← @read_eq_ok_iff path, ← mapM_eq_ok_iff, exists_mapM_eq_ok_iff]
  simp only [ofLogicalPath_eq_ok_iff]
  constructor
  · rintro ⟨_, declared, hread, rfl, hnodup⟩
    exact ⟨hreads.2 ⟨declared, hread⟩, names_eq_of_forall₂ hread ▸ hnodup⟩
  · rintro ⟨hall, hnodup⟩
    obtain ⟨declared, hread⟩ := hreads.1 hall
    exact ⟨_, declared, hread, rfl, (names_eq_of_forall₂ hread).symm ▸ hnodup⟩

end Segment

/-! ## Engines -/

/-- Whether an engine takes the pattern of a logical path, if the path has one. -/
def Engine.TakesPath (engine : Engine) (path : Text) : Prop :=
  ∀ segments, Segment.ofLogicalPath path = .ok segments →
    engine.Takes (Pattern.ofSegments segments).source

/-- Whether a logical path can be read, and the engine refuses its pattern for the given cause. -/
def Engine.RefusesPath (engine : Engine) (path cause : Text) : Prop :=
  ∃ segments, Segment.ofLogicalPath path = .ok segments ∧
    engine.refusal? (Pattern.ofSegments segments).source = some cause

theorem Engine.TakesPath.not_refusesPath {engine : Engine} {path cause : Text}
    (h : engine.TakesPath path) : ¬ engine.RefusesPath path cause := by
  rintro ⟨segments, hread, hrefusal⟩
  cases hrefusal.symm.trans (h segments hread)

/-- What an engine says of a pattern that would take too much memory. -/
def oversized : Text := "Compiled regex exceeds size limit of 10485760 bytes.".toList

/-- An engine that takes patterns of at most the given number of characters. -/
def Engine.upTo (limit : Nat) : Engine :=
  ⟨fun written => if written.length ≤ limit then none else some oversized⟩

theorem length_le_length_escape (t : Text) : t.length ≤ (escape t).length := by
  induction t with
  | nil => exact Nat.zero_le _
  | cons c t ih =>
      rw [escape, List.flatMap_cons, List.length_append, ← escape, List.length_cons]
      split <;> simp only [List.length_cons, List.length_nil] <;> omega

/-- A long literal component has a long pattern. -/
theorem Engine.refusesPath_of_length {limit : Nat} {text : Text} (hread : Segment.read? text =
    some (.literal text)) (hslash : '/' ∉ text) (hlength : limit < text.length) :
    (Engine.upTo limit).RefusesPath ('/' :: text) oversized := by
  have hcomponents : Text.components ('/' :: text) = [text] := by
    have hslashed : Text.slashed [text] = '/' :: text := List.append_nil _
    rw [← hslashed]
    apply Text.components_slashed
    · rintro part hpart rfl
      rw [← List.mem_singleton.1 hpart] at hlength
      exact Nat.not_lt_zero _ hlength
    · exact fun part hpart => List.mem_singleton.1 hpart ▸ hslash
  refine ⟨[.literal text], Segment.ofLogicalPath_eq_ok_iff.2 ⟨[.literal text], ?_, rfl, ?_⟩, ?_⟩
  · rw [hcomponents]
    exact .cons hread .nil
  · exact List.nodup_nil
  · have hsource : (Pattern.ofSegments [.literal text]).source =
        '^' :: '/' :: (escape text ++ ['$']) := by
      have hslash : escape ['/'] = ['/'] := by decide
      simp [Pattern.source, Pattern.ofSegments, Pattern.itemsOf, Segment.item, Item.source,
        Expr.source, hslash]
    -- nothing gets shorter by escaping
    have hescape := length_le_length_escape text
    have hlong : limit < (Pattern.ofSegments [.literal text]).source.length := by
      rw [hsource, List.length_cons, List.length_cons, List.length_append]
      omega
    exact if_neg (Nat.not_le_of_lt hlong)

/-! ## Routes -/

namespace Route

theorem exists_ofLogicalPath_iff_of_takesPath {engine : Engine} {source : Disk.Path} {path : Text}
    (h : engine.TakesPath path) : (∃ r, ofLogicalPath engine source path = .ok r) ↔
      ∃ segments, Segment.ofLogicalPath path = .ok segments := by
  rw [exists_ofLogicalPath_iff]
  exact ⟨fun ⟨segments, hread, _⟩ => ⟨segments, hread⟩,
    fun ⟨segments, hread⟩ => ⟨segments, hread, h segments hread⟩⟩

/-- The engine is asked last. -/
theorem ofLogicalPath_eq_error_iff {engine : Engine} {source : Disk.Path} {path : Text}
    {e : SegmentError} : ofLogicalPath engine source path = .error e ↔
      Segment.Refused path e ∨ ∃ cause, engine.RefusesPath path cause ∧
        e = .refusedPattern path cause := by
  rw [← Segment.ofLogicalPath_eq_error_iff]
  unfold ofLogicalPath Engine.RefusesPath
  split
  · next segments hread =>
    simp only [map_eq_error_iff, Pattern.compile_eq_error_iff hread, hread, reduceCtorEq, false_or,
      Except.ok.injEq, exists_eq_left']
  · next e' hread => simp [hread]

theorem names_pattern (r : Route) :
    r.pattern.names = r.canonical.components.filterMap Segment.declaredName? := by
  obtain ⟨declared, hread, hsegments, _⟩ := Segment.ofLogicalPath_eq_ok_iff.1 r.segments_eq
  have hnames : r.pattern.names = Segment.names (Segment.orRoot declared) :=
    congrArg Segment.names hsegments
  rw [hnames, Segment.names_orRoot, Segment.names_eq_of_forall₂ hread]

theorem length_segments {r : Route} (h : r.canonical.components ≠ []) :
    r.segments.length = r.canonical.components.length := by
  rw [← r.forall₂_read?_parts.length_eq, LogicalPath.parts_of_ne_nil h]

theorem segments_of_root {r : Route} (h : r.canonical.components = []) :
    r.segments = [.literal []] := by
  obtain ⟨declared, hread, hsegments, _⟩ := Segment.ofLogicalPath_eq_ok_iff.1 r.segments_eq
  rw [h, List.forall₂_nil_left_iff] at hread
  rw [hsegments, hread]
  rfl

/-- With an engine that takes its pattern, a logical path is a route exactly if all its components
can be read and no name is repeated, and is refused for its first fault otherwise.  Any other engine
adds one failure: it can refuse the pattern of a path that has no fault.  The segments of the route
are those of the components, with their ranks and their names in order. -/
theorem ofLogicalPath_reads (engine : Engine) (source : Disk.Path) (path : Text) :
    (engine.TakesPath path →
      ((∃ r, ofLogicalPath engine source path = .ok r) ↔
        (∀ raw ∈ path.components, ∃ s, Segment.read? raw = some s) ∧
          (path.components.filterMap Segment.declaredName?).Nodup) ∧
      ∀ e, ofLogicalPath engine source path = .error e ↔ Segment.Refused path e) ∧
    (∀ e, ofLogicalPath engine source path = .error e ↔
      Segment.Refused path e ∨ ∃ cause, engine.RefusesPath path cause ∧
        e = .refusedPattern path cause) ∧
    ∀ r, ofLogicalPath engine source path = .ok r →
      List.Forall₂ (fun raw s => Segment.read? raw = some s) (LogicalPath.parts path) r.segments ∧
      (path.components ≠ [] → r.segments.length = path.components.length) ∧
      (path.components = [] → r.segments = [.literal []]) ∧
      r.specificity = r.segments.map Segment.rank ∧
      r.specificity.length = r.segments.length ∧
      r.pattern.names = r.segments.filterMap Segment.name? ∧
      r.pattern.names = path.components.filterMap Segment.declaredName? ∧
      r.pattern.names.Nodup := by
  refine ⟨?_, fun e => ofLogicalPath_eq_error_iff, ?_⟩
  · intro htakes
    constructor
    · rw [exists_ofLogicalPath_iff_of_takesPath htakes, Segment.exists_ofLogicalPath_eq_ok_iff]
    · intro e
      simp only [ofLogicalPath_eq_error_iff, htakes.not_refusesPath, false_and, exists_false,
        or_false]
  · intro r h
    obtain ⟨_, rfl, _⟩ := ofLogicalPath_eq_ok_iff.1 h
    exact ⟨r.forall₂_read?_parts, length_segments, segments_of_root, rfl, List.length_map ..,
      rfl, r.names_pattern, r.nodup_names⟩

/-- A repeated name is passed over for a component behind it that cannot be read, and reported if
there is none; a path without a fault is still refused if it is too long. -/
theorem ofLogicalPath_reads_idTwice :
    ofLogicalPath (.upTo 300000) ⟨[]⟩ "/[id]/[...id:number]/[x:y]".toList =
      .error (.invalidParameter "[x:y]".toList "/[id]/[...id:number]/[x:y]".toList) ∧
    ofLogicalPath (.upTo 300000) ⟨[]⟩ "/[id]//[...id:number]".toList =
      .error (.repeatedName "id".toList "/[id]//[...id:number]".toList) ∧
    ofLogicalPath (.upTo 300000) ⟨[]⟩ ('/' :: List.replicate 1000000 'a') =
      .error (.refusedPattern ('/' :: List.replicate 1000000 'a') oversized) ∧
    (∃ r, ofLogicalPath (.upTo 300000) ⟨[]⟩ choiceAndNumber.canonical = .ok r) ∧
    choiceAndNumber.specificity = [3, 4, 2] ∧
    choiceAndNumber.pattern.names = [['k'], ['n']] := by
  obtain ⟨_, hunreadable, _⟩ :=
    ofLogicalPath_reads (.upTo 300000) ⟨[]⟩ "/[id]/[...id:number]/[x:y]".toList
  obtain ⟨_, hrepeated, _⟩ := ofLogicalPath_reads (.upTo 300000) ⟨[]⟩ "/[id]//[...id:number]".toList
  obtain ⟨_, hrefused, _⟩ :=
    ofLogicalPath_reads (.upTo 300000) ⟨[]⟩ ('/' :: List.replicate 1000000 'a')
  obtain ⟨hclean, _, hroute⟩ :=
    ofLogicalPath_reads (.upTo 300000) ⟨[]⟩ choiceAndNumber.canonical
  have htakes : (Engine.upTo 300000).TakesPath choiceAndNumber.canonical := by
    intro segments h
    obtain rfl := Except.ok.inj (choiceAndNumber.segments_eq.symm.trans h)
    decide +kernel
  have hmade : ofLogicalPath (.upTo 300000) ⟨[]⟩ choiceAndNumber.canonical = .ok choiceAndNumber :=
    ofLogicalPath_eq_ok_iff.2 ⟨rfl, rfl, rfl, htakes _ choiceAndNumber.segments_eq⟩
  obtain ⟨_, _, _, hranks, _, hnames, _⟩ := hroute choiceAndNumber hmade
  have hsplit : Text.components "/[id]/[...id:number]/[x:y]".toList =
      ["[id]".toList, "[...id:number]".toList] ++ "[x:y]".toList :: [] := rfl
  have hread : ∀ part ∈ ["[id]".toList, "[...id:number]".toList],
      ∃ s, Segment.read? part = some s := by
    intro part hpart
    rcases List.mem_pair.1 hpart with rfl | rfl
    · exact ⟨.wildcard "id".toList, rfl⟩
    · exact ⟨.number "id".toList, rfl⟩
  refine ⟨(hunreadable _).2 (.inl (.unreadable hsplit hread rfl)),
    (hrepeated _).2 (.inl ?_), (hrefused _).2 (.inr ⟨oversized, ?_, rfl⟩),
    (hclean htakes).1.2 (Segment.exists_ofLogicalPath_eq_ok_iff.1
      ⟨_, choiceAndNumber.segments_eq⟩), hranks, hnames⟩
  · refine @Segment.Refused.repeated _ _ [.wildcard "id".toList] [] (.number "id".toList) _ ?_ rfl
      (List.nodup_singleton _) rfl (List.mem_singleton.2 rfl)
    exact .cons rfl (.cons rfl .nil)
  · apply Engine.refusesPath_of_length rfl
    · exact fun hmem => absurd (List.eq_of_mem_replicate hmem) (by decide)
    · rw [List.length_replicate]
      decide

end Route

end FileRouting
