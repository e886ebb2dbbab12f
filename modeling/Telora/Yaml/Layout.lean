import Telora.Yaml.Lowering

/-!
# Trees in block style

A tree of mappings, sequences and scalars together with how it is laid out: how far each
block is indented, and which blocks start on the line of a dash or are flush with their
key. Every layout of a tree has the value of the tree.
-/

namespace Telora.Yaml

open Library

/-- A key of letters, digits, underscores and dashes. -/
structure Identifier where
  text : List Char
  head : text.head?.any (fun c => c.isAlpha || c = '_') = true
  plain : text.all (fun c => c.isAlphanum || c = '_' || c = '-') = true

def Identifier.name (key : Identifier) : String := String.ofList key.text

/-- The characters that start something else than a scalar. -/
def indicators : List Char := ['!', '*', '&', '[', '\x7b', '|', '>', '#']

/-- A scalar on one line with the value of its text: no comment, no colon of a key and no
indicator is in it. -/
structure Scalar where
  text : List Char
  value : Value
  starts : StartsSolid text
  ends : EndsSolid text
  oneLine : '\n' ∉ text
  plainStart : ∀ c ∈ text.head?, c ∉ indicators
  notItem : itemText text = none
  notMarker : text ≠ ['-', '-', '-']
  unsplit : splitMapping text = none
  uncommented : stripComment text = text
  reads : parseScalar text = .ok value

mutual

/-- A block and its layout. -/
inductive Layout where
  | scalar (scalar : Scalar)
  | sequence (items : List Item)
  | mapping (entries : List Entry)

/-- An item: behind its dash and some more spaces, or below it at some further columns. -/
inductive Item where
  | onLine (gap : Nat) (node : Layout)
  | under (extra : Nat) (node : Layout)

/-- An entry: a scalar behind the colon, a block below the key at some further columns, or
a sequence that is flush with the key. -/
inductive Entry where
  | onLine (key : Identifier) (gap : Nat) (scalar : Scalar)
  | under (key : Identifier) (extra : Nat) (node : Layout)
  | flush (key : Identifier) (items : List Item)

end

def Entry.key : Entry → Identifier
  | .onLine key _ _ => key
  | .under key _ _ => key
  | .flush key _ => key

/-- The dict of some fields, in the order of their keys. -/
def dictOf (fields : List (String × Value)) : Value :=
  let fields := fields.mergeSort fun left right => left.1 ≤ right.1
  .dict (fields.map (·.1)) (fields.map (·.2))

mutual

/-- The value of a tree. -/
def Layout.value : Layout → Value
  | .scalar scalar => scalar.value
  | .sequence items => .array (itemValues items)
  | .mapping entries => dictOf (entryFields entries)

def Item.value : Item → Value
  | .onLine _ node => node.value
  | .under _ node => node.value

def Entry.value : Entry → Value
  | .onLine _ _ scalar => scalar.value
  | .under _ _ node => node.value
  | .flush _ items => .array (itemValues items)

def itemValues : List Item → List Value
  | [] => []
  | item :: rest => item.value :: itemValues rest

def entryFields : List Entry → List (String × Value)
  | [] => []
  | entry :: rest => (entry.key.name, entry.value) :: entryFields rest

end

mutual

/-- No collection is empty, and no key is twice in a mapping. -/
def Layout.WellFormed : Layout → Prop
  | .scalar _ => True
  | .sequence items => items ≠ [] ∧ ItemsWellFormed items
  | .mapping entries => entries ≠ [] ∧ (entries.map (·.key.name)).Nodup ∧ EntriesWellFormed entries

def Item.WellFormed : Item → Prop
  | .onLine _ node => node.WellFormed
  | .under _ node => node.WellFormed

def Entry.WellFormed : Entry → Prop
  | .onLine _ _ _ => True
  | .under _ _ node => node.WellFormed
  | .flush _ items => items ≠ [] ∧ ItemsWellFormed items

def ItemsWellFormed : List Item → Prop
  | [] => True
  | item :: rest => item.WellFormed ∧ ItemsWellFormed rest

def EntriesWellFormed : List Entry → Prop
  | [] => True
  | entry :: rest => entry.WellFormed ∧ EntriesWellFormed rest

end

def spaces (n : Nat) : List Char := List.replicate n ' '

/-- Put the first line of a block behind a dash. -/
def onDash (column gap : Nat) : List (Nat × List Char) → List (Nat × List Char)
  | [] => []
  | (_, text) :: rest => (column, '-' :: (spaces (gap + 1) ++ text)) :: rest

/-- What stands behind the colon of an entry. -/
def Entry.behind : Entry → List Char
  | .onLine _ gap scalar => spaces (gap + 1) ++ scalar.text
  | _ => []

/-- The line of the key of an entry. -/
def Entry.line (entry : Entry) : List Char := entry.key.text ++ ':' :: entry.behind

mutual

/-- The lines of a block at a column, each with its indentation. -/
def Layout.render (column : Nat) : Layout → List (Nat × List Char)
  | .scalar scalar => [(column, scalar.text)]
  | .sequence items => renderItems column items
  | .mapping entries => renderEntries column entries

def Item.render (column : Nat) : Item → List (Nat × List Char)
  | .onLine gap node => onDash column gap (node.render (column + 2 + gap))
  | .under extra node => (column, ['-']) :: node.render (column + extra + 1)

/-- The lines below the key of an entry. -/
def Entry.renderBelow (column : Nat) : Entry → List (Nat × List Char)
  | .onLine _ _ _ => []
  | .under _ extra node => node.render (column + extra + 1)
  | .flush _ items => renderItems column items

def renderItems (column : Nat) : List Item → List (Nat × List Char)
  | [] => []
  | item :: rest => item.render column ++ renderItems column rest

def renderEntries (column : Nat) : List Entry → List (Nat × List Char)
  | [] => []
  | entry :: rest =>
      (column, entry.line) :: (entry.renderBelow column ++ renderEntries column rest)

end

/-- The text of some lines. -/
def linesText (lines : List (Nat × List Char)) : List Char :=
  lines.flatMap fun line => spaces line.1 ++ line.2 ++ ['\n']

/-- Whether a key is read as a string. -/
def Identifier.isString (key : Identifier) : Bool := !coreNonString key.text

mutual

/-- The layouts that are read as their tree: no item has a sequence on its line, a mapping
on the line of an item has one space before it or a single entry, and a sequence is
indented further than its key, unless the key is in such a single entry. -/
def Layout.readable : Layout → Bool
  | .scalar _ => true
  | .sequence items => itemsReadable items
  | .mapping entries => entriesReadable false entries

def Item.readable : Item → Bool
  | .onLine _ (.scalar _) => true
  | .onLine _ (.sequence _) => false
  | .onLine gap (.mapping entries) =>
      (gap = 0 || entries.length = 1) && entriesReadable (0 < gap) entries
  | .under _ node => node.readable

/-- An entry is shifted when its key is further right than its mapping is taken to be. -/
def Entry.readable (shifted : Bool) : Entry → Bool
  | .onLine _ _ _ => true
  | .under _ _ node => node.readable
  | .flush _ items => shifted && itemsReadable items

def itemsReadable : List Item → Bool
  | [] => true
  | item :: rest => item.readable && itemsReadable rest

def entriesReadable (shifted : Bool) : List Entry → Bool
  | [] => true
  | entry :: rest =>
      entry.key.isString && entry.readable shifted && entriesReadable shifted rest

end

end Telora.Yaml
