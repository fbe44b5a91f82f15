import AskFable.Python.JsonText

/-!
# Configs of the operator

Files in a part of TOML: comments, `key = value` lines whose arrays may go over several lines,
and table headers, with every way to spell a key. A file is known by its structure, which says
what each of its lines belongs to; its text is these lines.
-/
namespace AskFable.Kimi
open AskFable.Text

/-! ### Keys -/

def isIndent (c : Cp) : Bool := c == cp ' ' || c == cp '\t'

/-- What may stand in a comment or a string. -/
def isText (c : Cp) : Bool := c == cp '\t' || (32 ≤ c.val && c.val != 127 && !isSurrogate c)

def isBare (c : Cp) : Bool := isAlnum c || c == cp '_' || c == cp '-'

/-- The number of a run of hexadecimal digits. -/
def hexNumber (digits : Str) : Option ℕ :=
  digits.foldl (fun n c => n.bind fun n => (Python.JsonText.hexVal c).map (16 * n + ·)) (some 0)

def SHORT_ESCAPES : List (Cp × Cp) :=
  [(cp 'b', 8), (cp 't', 9), (cp 'n', 10), (cp 'f', 12), (cp 'r', 13), (cp '"', cp '"'),
    (cp '\\', cp '\\')]

/-- The spellings of a code point in a basic string. -/
inductive Spells : Str → Cp → Prop
  | plain (c : Cp) (h : (isText c && c != cp '"' && c != cp '\\') = true) : Spells [c] c
  | short (letter c : Cp) (h : (letter, c) ∈ SHORT_ESCAPES) : Spells [cp '\\', letter] c
  | four (digits : Str) (c : Cp) (hlength : digits.length = 4)
      (h : hexNumber digits = some c.val) : Spells (txt "\\u" ++ digits) c
  | eight (digits : Str) (c : Cp) (hlength : digits.length = 8)
      (h : hexNumber digits = some c.val) : Spells (txt "\\U" ++ digits) c

/-- A code point of a basic string. -/
structure Spelled where
  spelling : Str
  char : Cp
  spells : Spells spelling char

/-- One part of a dotted key. -/
inductive Part
  | bare (s : Str) (h : s ≠ [] ∧ s.all isBare = true)
  | basic (s : List Spelled)
  | literal (s : Str) (h : s.all (fun c => isText c && c != cp '\'') = true)

def Part.name : Part → Str
  | .bare s _ => s
  | .basic s => s.map (·.char)
  | .literal s _ => s

def Part.spelling : Part → Str
  | .bare s _ => s
  | .basic s => cp '"' :: s.flatMap (·.spelling) ++ [cp '"']
  | .literal s _ => cp '\'' :: s ++ [cp '\'']

/-- A further part of a key, with its dot. -/
structure Dotted where
  before : Str
  after : Str
  part : Part
  spaced : (before ++ after).all isIndent = true

def Dotted.spelling (d : Dotted) : Str := d.before ++ cp '.' :: d.after ++ d.part.spelling

structure Key where
  first : Part
  rest : List Dotted

def Key.names (k : Key) : List Str := k.first.name :: k.rest.map (·.part.name)

def Key.spelling (k : Key) : Str := k.first.spelling ++ k.rest.flatMap Dotted.spelling

/-! ### Files -/

/-- What follows on a line: white space, or a comment after it. -/
structure Tail where
  indent : Str
  comment : Option Str
  spaced : indent.all isIndent = true
  written : ∀ c ∈ comment, c.all isText = true

def Tail.text (t : Tail) : Str := t.indent ++ t.comment.elim [] (cp '#' :: ·)

/-- `[key]`, or `[[key]]` for an array of tables. -/
structure Header where
  indent : Str
  array : Bool
  left : Str
  key : Key
  right : Str
  tail : Tail
  spaced : (indent ++ left ++ right).all isIndent = true

def Header.text (h : Header) : Str :=
  h.indent ++ (if h.array then txt "[[" else txt "[") ++ h.left ++ h.key.spelling ++ h.right ++
    (if h.array then txt "]]" else txt "]") ++ h.tail.text

/-- The line does not begin as `key =` does for a bare key; no row of an array does. -/
def isRow (s : Str) : Bool :=
  ((((strip s).dropWhile isBare).dropWhile isSpace).head? != some (cp '=')) && s.all isText

/-- `key = value`; of a value that goes over several lines the further ones are the rows. -/
structure Entry where
  indent : Str
  key : Key
  gap : Str
  value : Str
  rows : List Str
  spaced : (indent ++ gap).all isIndent = true
  written : value.all isText = true
  rowed : rows.all isRow = true

def Entry.text (e : Entry) : Str := e.indent ++ e.key.spelling ++ e.gap ++ cp '=' :: e.value

inductive Item
  /-- A comment, or nothing. -/
  | remark (t : Tail)
  | entry (e : Entry)

structure Table where
  header : Header
  items : List Item

/-- What stands before the first header, and the tables after it. -/
structure Config where
  top : List Item
  tables : List Table

/-! ### Lines -/

/-- What a line is, with the key it is of. -/
inductive Role
  | remark
  | header (names : List Str)
  | key (names : List Str)
  | row (names : List Str)
  deriving DecidableEq

/-- A line with its role and the table it is in; before the first header it is in none. -/
structure Line where
  text : Str
  role : Role
  table : Option (List Str)
  deriving DecidableEq

def Item.lines (table : Option (List Str)) : Item → List Line
  | .remark t => [⟨t.text, .remark, table⟩]
  | .entry e => ⟨e.text, .key e.key.names, table⟩ ::
      e.rows.map fun row => ⟨row, .row e.key.names, table⟩

def Table.lines (t : Table) : List Line :=
  ⟨t.header.text, .header t.header.key.names, some t.header.key.names⟩ ::
    t.items.flatMap (Item.lines (some t.header.key.names))

def Config.lines (cfg : Config) : List Line :=
  cfg.top.flatMap (Item.lines none) ++ cfg.tables.flatMap Table.lines

/-- A file ends in a newline where its last line is empty. -/
def Config.text (cfg : Config) : Str := (txt "\n").intercalate (cfg.lines.map (·.text))

/-! ### What is declared -/

def MODE : Str := txt "default_permission_mode"
def THINKING : Str := txt "thinking"

/-- The lines of what the sandbox sets itself: the table `thinking`, and the keys before the first
header that declare it or `default_permission_mode`. -/
def Line.removed (l : Line) : Bool :=
  match l.table, l.role with
  | some names, _ => names == [THINKING]
  | none, .key names | none, .row names =>
    names.head? == some MODE || names.head? == some THINKING
  | none, _ => false

/-- The line declares `default_permission_mode`: as a key, or as a table that it then is. -/
def Line.declaresMode (l : Line) : Bool :=
  match l.role with
  | .key names => l.table == none && names.head? == some MODE
  | .header names => names.head? == some MODE
  | _ => false

/-- The line declares the table `thinking`, by its header or by a key. -/
def Line.declaresThinking (l : Line) : Bool :=
  match l.role with
  | .key names => l.table == none && names.head? == some THINKING
  | .header names => names == [THINKING]
  | _ => false

/-- The table that a line is in which follows lines of `table`. -/
def Line.stands (table : Option (List Str)) (l : Line) : Option (List Str) :=
  match l.role with
  | .header names => some names
  | _ => table

/-- The tables that the lines are in by the headers before them. -/
def placesFrom : Option (List Str) → List Line → List (Option (List Str))
  | _, [] => []
  | table, l :: rest => l.stands table :: placesFrom (l.stands table) rest

end AskFable.Kimi
