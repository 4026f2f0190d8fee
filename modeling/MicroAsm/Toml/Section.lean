import MicroAsm.Toml.Basic

/-!
# Building TOML tables

Headers and dotted keys open tables on their way. A table that a header opens can be opened once;
one that only stands on the way of other headers is implicit and can still be opened; one that
dotted keys make belongs to the table they stand in.
-/

namespace MicroAsm.Toml

/-- What a key stands for while a document is read. -/
inductive Item where
  | value (v : Value)
  /-- A table that is implicit or not, and made by dotted keys or not. -/
  | table (implicit dotted : Bool) (items : List (String × Item))
  /-- The tables that headers in double brackets open. -/
  | tables (all : List (List (String × Item)))
deriving Inhabited

/-- Keys with what they stand for. -/
abbrev Items := List (String × Item)

def replaceItem (items : Items) (key : String) (item : Item) : Items :=
  items.map fun (k, i) => if k = key then (k, item) else (k, i)

def removeItem (items : Items) (key : String) : Items :=
  items.filter (·.1 != key)

/-- Changes the items of the table at the end of a path. Tables that are missing on the way are
made; the change sees whether the table was made by dotted keys. -/
def updateAt {α : Type} (byDots : Bool) (change : Bool → Items → Option (Items × α)) :
    (path : List String) → (dotted : Bool) → Items → Option (Items × α)
  | [], dotted, items => change dotted items
  | key :: path, _, items =>
    match items.lookup key with
    | none => do
      let (inner, a) ← updateAt byDots change path byDots []
      return (items ++ [(key, .table true byDots inner)], a)
    | some (.value _) => none
    | some (.tables all) => do
      let last ← all.getLast?
      let (inner, a) ← updateAt byDots change path false last
      return (replaceItem items key (.tables (all.dropLast ++ [inner])), a)
    | some (.table implicit dotted inner) =>
      if byDots && !implicit then none
      else do
        let (inner, a) ← updateAt byDots change path dotted inner
        return (replaceItem items key (.table implicit dotted inner), a)

/-- Adds a value under a key with the given parts in front of its last one. Only tables made by
dotted keys can be extended by them. -/
def addValue (items : Items) (path : List String) (key : String) (item : Item) : Option Items := do
  let add (dotted : Bool) (items : Items) : Option (Items × Unit) :=
    if dotted == path.isEmpty then none
    else if (items.lookup key).isSome then none
    else some (items ++ [(key, item)], ())
  let (items, _) ← updateAt true add path false items
  return items

/-- A document that is being read. -/
structure Builder where
  /-- The tables that are complete. -/
  root : Items := []
  /-- The key of the table that is being filled, empty for the document itself. -/
  path : List String := []
  /-- Its header has double brackets. -/
  inArray : Bool := false
  /-- What is in it so far. -/
  current : Items := []

namespace Builder

/-- Puts the table that is being filled into the document. -/
def close (b : Builder) : Option Items :=
  match b.path.getLast? with
  | none => some b.current
  | some key => do
    let insert (_ : Bool) (items : Items) : Option (Items × Unit) :=
      match items.lookup key with
      | none =>
        let item : Item := if b.inArray then .tables [b.current] else .table false false b.current
        some (items ++ [(key, item)], ())
      | some (.tables all) =>
        if b.inArray then some (replaceItem items key (.tables (all ++ [b.current])), ()) else none
      | some (.table true _ _) =>
        if b.inArray then none
        else some (replaceItem items key (.table false false b.current), ())
      | some _ => none
    let (items, _) ← updateAt false insert b.path.dropLast false b.root
    return items

/-- Opens the table of a header. What other headers put into it already is kept. -/
def openTable (b : Builder) (path : List String) : Option Builder := do
  let root ← b.close
  let key ← path.getLast?
  let take (_ : Bool) (items : Items) : Option (Items × Items) :=
    match items.lookup key with
    | none => some (items, [])
    | some (.table true false inner) => some (removeItem items key, inner)
    | some _ => none
  let (root, current) ← updateAt false take path.dropLast false root
  return { root, path, current }

/-- Opens one more table of a header in double brackets. -/
def openArray (b : Builder) (path : List String) : Option Builder := do
  let root ← b.close
  let key ← path.getLast?
  let check (_ : Bool) (items : Items) : Option (Items × Unit) :=
    match items.lookup key with
    | none => some (items ++ [(key, .tables [])], ())
    | some (.tables _) => some (items, ())
    | some _ => none
  let (root, _) ← updateAt false check path.dropLast false root
  return { root, path, inArray := true }

/-- Adds a value to the table that is being filled. -/
def add (b : Builder) (keys : List String) (v : Value) : Option Builder := do
  let key ← keys.getLast?
  let current ← addValue b.current keys.dropLast key (.value v)
  return { b with current }

end Builder

mutual

/-- What a key stands for in the end. -/
def Item.toValue : Item → Value
  | .value v => v
  | .table _ _ items => .table (Items.toTable items)
  | .tables all => .array (tablesToValues all)

/-- Keys with their values in the end. -/
def Items.toTable : List (String × Item) → List (String × Value)
  | [] => []
  | (key, item) :: rest => (key, Item.toValue item) :: Items.toTable rest

/-- Tables as values. -/
def tablesToValues : List (List (String × Item)) → List Value
  | [] => []
  | items :: rest => .table (Items.toTable items) :: tablesToValues rest

end

end MicroAsm.Toml
