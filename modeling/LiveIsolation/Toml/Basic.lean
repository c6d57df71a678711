/-!
# TOML documents

The tree that a TOML document stands for, and the rules by which its lines add to the tree.
A table can come from a header, can be implied by the header of a table below it, or can grow
out of dotted keys; an inline table is complete as written. A header may complete a table that
was only implied, and dotted keys may only go through tables that have no header of their own.
A header that names an array of tables stands for its last element.

Of values that no setting can have, floats and dates, only the kind is kept.
-/

namespace LiveIsolation

/-- Where a table comes from. -/
inductive TableOrigin where
  | header
  | implied
  | dotted
  | inline
  deriving DecidableEq, Repr

inductive Toml where
  | text (s : String)
  | integer (n : Int)
  | boolean (b : Bool)
  | float
  | date
  | array (elements : List Toml)
  | table (origin : TableOrigin) (entries : List (String × Toml))
  /-- An array whose elements have headers. -/
  | tables (elements : List Toml)

namespace Toml

abbrev Entries := List (String × Toml)

/-- A line of a document that says something, or an entry of an inline table. -/
inductive Line where
  | header (path : List String)
  | element (path : List String)
  | entry (path : List String) (value : Toml)

def empty (origin : TableOrigin) : Toml := .table origin []

/-- Sets the value of a key; a new key comes last. -/
def set (entries : Entries) (key : String) (value : Toml) : Entries :=
  match entries with
  | [] => [(key, value)]
  | (k, v) :: rest => if k = key then (key, value) :: rest else (k, v) :: set rest key value

/-- Changes the table that a header stands for. -/
def inTable (f : Toml → Option Toml) : Toml → Option Toml
  | .table .inline _ => none
  | .table origin entries => f (.table origin entries)
  | .tables elements =>
    match elements.getLast? with
    | some last => (f last).map fun last => .tables (elements.dropLast ++ [last])
    | none => none
  | _ => none

/-- Changes the table at a path; tables that are missing on the way are implied. -/
def atPath (f : Toml → Option Toml) : List String → Toml → Option Toml
  | [], t => f t
  | key :: path, .table origin entries => do
    let child := (entries.lookup key).getD (empty .implied)
    let child ← inTable (atPath f path) child
    return .table origin (set entries key child)
  | _ :: _, _ => none

/-- Puts a value at a path of dotted keys below a table. -/
def insertDotted (value : Toml) : List String → Toml → Option Toml
  | [], _ => none
  | [key], .table origin entries =>
    if (entries.lookup key).isSome then none else some (.table origin (set entries key value))
  | key :: path, .table origin entries =>
    match (entries.lookup key).getD (empty .dotted) with
    | .table .dotted below => do
      let child ← insertDotted value path (.table .dotted below)
      return .table origin (set entries key child)
    | .table .implied below =>
      -- only a table that grew out of dotted keys takes further entries
      match path with
      | [_] => none
      | path => do
        let child ← insertDotted value path (.table .implied below)
        return .table origin (set entries key child)
    | .tables elements =>
      match path, elements.getLast? with
      | [_], _ | _, none => none
      | path, some last => do
        let last ← insertDotted value path last
        return .table origin (set entries key (.tables (elements.dropLast ++ [last])))
    | _ => none
  | _ :: _, _ => none

/-- The table of a header begins. -/
def beginTable (key : String) : Toml → Option Toml
  | .table origin entries =>
    match entries.lookup key with
    | none => some (.table origin (set entries key (empty .header)))
    | some (.table .implied below) => some (.table origin (set entries key (.table .header below)))
    | some _ => none
  | _ => none

/-- Another element of an array of tables begins. -/
def beginElement (key : String) : Toml → Option Toml
  | .table origin entries =>
    match entries.lookup key with
    | none => some (.table origin (set entries key (.tables [empty .header])))
    | some (.tables elements) =>
      some (.table origin (set entries key (.tables (elements ++ [empty .header]))))
    | some _ => none
  | _ => none

/-- The path of a table, split into the path of its parent and its own key. -/
def splitPath (path : List String) : Option (List String × String) :=
  path.getLast?.map fun key => (path.dropLast, key)

/-- A document under construction: its tree, and the path of the last header. -/
structure Draft where
  root : Toml := empty .header
  current : List String := []

/-- Adds a line to a document. -/
def Draft.add (d : Draft) : Line → Option Draft
  | .header path => do
    let (parent, key) ← splitPath path
    return ⟨← atPath (beginTable key) parent d.root, path⟩
  | .element path => do
    let (parent, key) ← splitPath path
    return ⟨← atPath (beginElement key) parent d.root, path⟩
  | .entry path value => do
    return ⟨← atPath (insertDotted value path) d.current d.root, d.current⟩

/-- The tree of a document. -/
def ofLines? (lines : List Line) : Option Toml :=
  (lines.foldlM Draft.add {}).map (·.root)

/-- An inline table with entries whose keys may be dotted. -/
def inlineTable? (entries : List (List String × Toml)) : Option Toml := do
  match ← entries.foldlM (fun t (path, value) => insertDotted value path t) (empty .header) with
  | .table _ entries => return .table .inline entries
  | _ => none

end Toml

end LiveIsolation
