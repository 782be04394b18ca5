import FileRouting.Options.Basic

/-!
# Options as settings

Options are kept in configuration files as a tree of settings. `Options.write` gives the tree of an
options value: an object with one entry for each option. `Options.read?` takes such an object with
the entries in any order and others among them, or a list of the values in the order of the
entries, and needs every option to be there with a value of its own type.
-/

namespace FileRouting

/-- A tree of settings. No option has a number as its value, so that all numbers are one. -/
inductive Setting where
  | null
  | bool (b : Bool)
  | number
  | text (t : Text)
  | list (settings : List Setting)
  | object (entries : List (Text × Setting))
  deriving Inhabited

namespace Setting

def bool? : Setting → Option Bool
  | bool b => some b
  | _ => none

def text? : Setting → Option Text
  | text t => some t
  | _ => none

/-- The values of the named settings: by name in an object, and by position in a list of as many
values. -/
def values? (names : List Text) : Setting → Option (List Setting)
  | object entries => names.mapM fun name => entries.lookup name
  | list settings => if settings.length = names.length then some settings else none
  | _ => none

end Setting

namespace TieBreak

def name : TieBreak → Text
  | canonicalPath => "CanonicalPath".toList
  | enumeration => "Enumeration".toList
  | reject => "Reject".toList

def ofName? (t : Text) : Option TieBreak :=
  [canonicalPath, enumeration, reject].find? fun b => b.name = t

/-- The tie break that a setting names, as a text or as an object's only entry, without value. -/
def read? : Setting → Option TieBreak
  | .text t => ofName? t
  | .object [(t, .null)] => ofName? t
  | _ => none

end TieBreak

namespace Normalization

def entryNames : List Text :=
  ["decode_percent".toList, "strip_query".toList, "allow_duplicate_slash".toList]

def write (n : Normalization) : Setting :=
  .object (entryNames.zip [.bool n.decodePercent, .bool n.stripQuery, .bool n.allowDuplicateSlash])

def read? (s : Setting) : Option Normalization := do
  match ← s.values? entryNames with
  | [decode, strip, duplicates] =>
    return ⟨← decode.bool?, ← strip.bool?, ← duplicates.bool?⟩
  | _ => none

end Normalization

namespace Options

def entryNames : List Text :=
  ["route_file_stem".toList, "extensions".toList, "layout_file_stem".toList,
    "discover_layouts".toList, "tie_break".toList, "follow_links".toList, "normalization".toList]

def write (o : Options) : Setting :=
  .object (entryNames.zip [.text o.routeFileStem, .text o.extensions.write, .text o.layoutFileStem,
    .bool o.discoverLayouts, .text o.tieBreak.name, .bool o.followLinks, o.normalization.write])

def read? (s : Setting) : Option Options := do
  match ← s.values? entryNames with
  | [route, extensions, layout, discover, tieBreak, follow, normalization] =>
    return ⟨← route.text?, ← extensions.text?.bind Extensions.read?, ← layout.text?,
      ← discover.bool?, ← TieBreak.read? tieBreak, ← follow.bool?,
      ← Normalization.read? normalization⟩
  | _ => none

end Options

end FileRouting
