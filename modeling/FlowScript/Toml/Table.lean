/-!
# TOML values and the tables they are put into

A table can be written in four ways: under a header of its own, as the way to another header, as the
way to a dotted key, or inline. How it was written decides how it may still be extended: inline
tables are closed, a header can take over only a table that other headers passed through, and a
dotted key must end in a table that dotted keys made.
-/

namespace FlowScript.Toml

/-- How a table came to be. -/
inductive Origin where
  | header
  | implied
  | dotted
  | inline
deriving DecidableEq, Repr

/-- A TOML value. Numbers and moments keep their written form; `tables` are the tables of a repeated
header in double brackets. -/
inductive Value where
  | string (text : String)
  | boolean (value : Bool)
  | number (text : String)
  | moment (text : String)
  | array (items : List Value)
  | table (origin : Origin) (entries : List (String × Value))
  | tables (elements : List (List (String × Value)))
deriving Repr

/-- The entries of a table, in the order in which their keys first appear. -/
abbrev Entries :=
  List (String × Value)

namespace Entries

/-- Put a value under a key, in place of the one that is there. -/
def put (key : String) (value : Value) : Entries → Entries
  | [] => [(key, value)]
  | (k, v) :: rest => if k = key then (k, value) :: rest else (k, v) :: put key value rest

/-- Put a value under a key that is not taken. -/
def add (key : String) (value : Value) (entries : Entries) : Option Entries :=
  match entries.lookup key with
  | none => some (entries ++ [(key, value)])
  | some _ => none

/-- Whether a table may be passed through on the way to a key (`dotted`) or to a header. -/
def isOpen (dotted : Bool) : Origin → Bool
  | .inline => false
  | .header => !dotted
  | .implied | .dotted => true

/-- Change the table at the end of a path, given how that table came to be. Tables that are missing
on the way are made, and of repeated tables the last one is entered. -/
def change (dotted : Bool) (act : Origin → Entries → Option Entries) :
    List String → Origin → Entries → Option Entries
  | [], origin, entries => act origin entries
  | key :: path, _, entries =>
    match entries.lookup key with
    | none =>
      let origin := if dotted then .dotted else .implied
      (change dotted act path origin []).map fun t => entries ++ [(key, .table origin t)]
    | some (.table origin t) =>
      if isOpen dotted origin then
        (change dotted act path origin t).map fun t => entries.put key (.table origin t)
      else none
    | some (.tables ts) => do
      let t ← change dotted act path .header (← ts.getLast?)
      some (entries.put key (.tables (ts.dropLast ++ [t])))
    | some _ => none

/-- Put a value under a dotted key, given by its path and its last part. -/
def assign (path : List String) (key : String) (value : Value) (entries : Entries) :
    Option Entries :=
  entries.change true
    (fun origin es => if path.isEmpty || origin = .dotted then es.add key value else none)
    path .header

/-- Open the table under a header, given by its path and its last part. -/
def openTable (path : List String) (key : String) (entries : Entries) : Option Entries :=
  entries.change false
    (fun _ es =>
      match es.lookup key with
      | none => es.add key (.table .header [])
      | some (.table .implied t) => some (es.put key (.table .header t))
      | some _ => none)
    path .header

/-- Open one more table under a repeated header, given by its path and its last part. -/
def openElement (path : List String) (key : String) (entries : Entries) : Option Entries :=
  entries.change false
    (fun _ es =>
      match es.lookup key with
      | none => es.add key (.tables [[]])
      | some (.tables ts) => some (es.put key (.tables (ts ++ [[]])))
      | some _ => none)
    path .header

end Entries

end FlowScript.Toml
