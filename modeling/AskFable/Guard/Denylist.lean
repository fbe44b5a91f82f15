import AskFable.Python.Normalize
import AskFable.Python.Search
import AskFable.Python.Utf8

/-!
# The denylist

A prompt is folded to plain letters, the matches of benign phrases are replaced by a space, and
what is left is searched for an offense term. The operator adds terms and phrases from files.
-/
namespace AskFable.Guard
open AskFable.Text AskFable.Python AskFable.Python.Bytes AskFable.Python.Utf8 AskFable.Regex

variable (u : Unicode)

/-! ### Folding -/

def within (ranges : List (ℕ × ℕ)) (c : Cp) : Bool :=
  ranges.any fun r => decide (r.1 ≤ c.val) && decide (c.val ≤ r.2)

/-- `_INVISIBLE`. -/
def INVISIBLE : List (ℕ × ℕ) :=
  [(0xAD, 0xAD), (0x34F, 0x34F), (0x61C, 0x61C), (0x115F, 0x115F), (0x1160, 0x1160),
    (0x17B4, 0x17B4), (0x17B5, 0x17B5), (0x180B, 0x180F), (0x200B, 0x200F), (0x202A, 0x202E),
    (0x2060, 0x206F), (0x3164, 0x3164), (0xFE00, 0xFE0F), (0xFEFF, 0xFEFF), (0xFFA0, 0xFFA0),
    (0xFFF9, 0xFFFB), (0xE0000, 0xE007F), (0xE0100, 0xE01EF)]

/-- `_COMBINING`. -/
def COMBINING : List (ℕ × ℕ) :=
  [(0x300, 0x36F), (0x1AB0, 0x1AFF), (0x1DC0, 0x1DFF), (0x20D0, 0x20FF), (0xFE20, 0xFE2F)]

/-- `_STRIPPED_CATEGORIES`. -/
def STRIPPED_CATEGORIES : List Category := [.mn, .me, .cf]

def stripped (c : Cp) : Bool := STRIPPED_CATEGORIES.contains (u.category c)

/-- `_CONFUSABLES`: a look-alike and its Latin twin. -/
def CONFUSABLES : List (Cp × Cp) :=
  (txt "аеорсухіјѕԁһӏԛԝАВЕКМНОРСТХІЈЅԌ" ++ txt "αεικνορτυχΑΒΕΗΙΚΜΝΟΡΤΥΧΖ" ++ txt "кмтвнгьѵ" ++
      txt "ƒɡոᴢ").zip
    (txt "aeopcyxijsdhlqwABEKMHOPCTXIJSG" ++ txt "aeiknoptuxABEHIKMNOPTYXZ" ++ txt "kmtbhrbv" ++
      txt "fgnz")

def translate (c : Cp) : Cp := (CONFUSABLES.lookup c).getD c

def isAscii (c : Cp) : Bool := decide (c.val < 128)

/-- The text that is matched. -/
def fold (text : Str) : Str :=
  if text.all isAscii then text
  else
    let text := u.nfkd text
    let text := (text.filter fun c => !within INVISIBLE c).filter fun c => !within COMBINING c
    let text := text.filter fun c => !stripped u c
    (u.nfkc text).map translate

/-! ### Patterns -/

/-- A character of a pattern under `IGNORECASE`. -/
def lit (c : Cp) : Re := .set fun d => u.caseless d == u.caseless c

def literal (w : Str) : Re := w.foldr (fun c r => .seq (lit u c) r) .empty

/-- `(?:s|es|ed|ing)?`. -/
def INFLECT : Re :=
  .opt (.alts [literal u (txt "s"), literal u (txt "es"), literal u (txt "ed"),
    literal u (txt "ing")])

/-- `e?(?:s|es|d|ed|ing)?`. -/
def INFLECT_E : Re :=
  .seq (.opt (lit u (cp 'e'))) (.opt (.alts [literal u (txt "s"), literal u (txt "es"),
    literal u (txt "d"), literal u (txt "ed"), literal u (txt "ing")]))

/-- `[\s_\-]`. -/
def isSep (c : Cp) : Bool := isSpace c || c == cp '_' || c == cp '-'

/-- `[\s_\-]+`. -/
def WORD_SEP : Re := .atLeast (.set isSep) 1

/-- `term.split()`. -/
def split (term : Str) : List Str := (term.splitOnP isSpace).filter (· ≠ [])

/-- A word and its inflections. -/
def inflect (word : Str) : Re :=
  if word.getLast? = some (cp 'e') then .seq (literal u word.dropLast) (INFLECT_E u)
  else .seq (literal u word) (INFLECT u)

def inflectable (term : Str) : Re := .seqs (((split term).map (inflect u)).intersperse WORD_SEP)

/-- `[A-Za-z0-9_]` under `IGNORECASE`. -/
def isWord (c : Cp) : Bool := isAlnum (u.caseless c) || u.caseless c == cp '_'

/-- The terms of `(?<![A-Za-z0-9_])(?:…|…)(?![A-Za-z0-9_])`. -/
def joined (terms : List Str) : Re := .alts (terms.map (inflectable u))

/-- The matches at a place, in the order they are tried. -/
def bounded (body : Re) (s : Pos) : List Pos :=
  (run (.seq (.notAfter (isWord u)) body) s).filter fun t => !t.post.head?.elim false (isWord u)

/-- `base64.b64decode(blob).decode()`. -/
def d (blob : String) : Str := ((b64decode (txt blob)).bind decode).getD []

def OFFENSE_TERMS : List Str :=
  [d "ZXhwbG9pdA==", d "bWFsd2FyZQ==", d "cmFuc29td2FyZQ==", d "cGF5bG9hZA==", d "cm9vdGtpdA==",
    d "a2V5bG9nZ2Vy", d "Ym90bmV0", d "YmFja2Rvb3I=", d "cHJpdmlsZWdlIGVzY2FsYXRpb24=",
    d "bGF0ZXJhbCBtb3ZlbWVudA==", d "ZXhmaWx0cmF0ZQ==", d "YzIgc2VydmVy", d "Ymlvd2VhcG9u",
    d "cGF0aG9nZW4=", d "cGF0aG9nZW5pYw==", d "dG94aW4=", d "dmlyYWwgdmVjdG9y",
    d "Z2VuZSBkcml2ZQ==", d "c3ludGhldGljIGJpb2xvZ3k=", d "YmlvaGF6YXJk"]

def ALLOW_TERMS : List Str :=
  [d "cmVxdWVzdCBwYXlsb2Fk", d "cmVzcG9uc2UgcGF5bG9hZA==", d "anNvbiBwYXlsb2Fk",
    d "aHR0cCBwYXlsb2Fk", d "bWVzc2FnZSBwYXlsb2Fk", d "ZXZlbnQgcGF5bG9hZA==",
    d "cGF5bG9hZCBzdHJ1Y3R1cmU=", d "cGF5bG9hZCBzY2hlbWE=", d "cGF5bG9hZCBib2R5",
    d "eG1sIHBheWxvYWQ=", d "YXBpIHBheWxvYWQ=", d "d2ViaG9vayBwYXlsb2Fk", d "ZGF0YSBwYXlsb2Fk",
    d "Zm9ybSBwYXlsb2Fk", d "bXVsdGlwYXJ0IHBheWxvYWQ=", d "cXVlcnkgcGF5bG9hZA==",
    d "ZXJyb3IgcGF5bG9hZA==", d "cGF5bG9hZCB0eXBl", d "cGF5bG9hZCBmaWVsZA==",
    d "cGF5bG9hZCBjbGFzcw=="]

/-- `_pattern`, with the operator's terms. -/
def pattern (extra : List Str) : Re := joined u (OFFENSE_TERMS ++ extra)

/-- `_allow_pattern`, with the operator's phrases: the longest first. -/
def allowPattern (extra : List Str) : Option Re :=
  let raw := ALLOW_TERMS ++ extra
  if raw = [] then none
  else some (joined u (raw.insertionSort fun a b => b.length ≤ a.length))

/-! ### The check -/

/-- A benign phrase leaves a space. -/
def scrubbedChar : Piece → Cp
  | .kept _ c => c
  | .cut _ _ => cp ' '

/-- `allow.sub(" ", text)`. -/
def scrub (allow : Option Re) (text : Str) : Str :=
  match allow with
  | none => text
  | some body => (pieces (bounded u body) text).map scrubbedChar

/-- `pattern.search(text)`. -/
def search (body : Re) (text : Str) : Bool := foundFrom (bounded u body) [] text

/-- The check with the patterns compiled. -/
def checkWith (offense : Re) (allow : Option Re) (prompt : Str) : Bool × Str :=
  if strip prompt = [] then (true, [])
  else if search u offense (scrub u allow (fold u prompt)) then
    (false, txt "offensive-security content")
  else (true, [])

/-- `check_denylist`, with the lines of the operator's two files. -/
def checkDenylist (deny allow : List Str) (prompt : Str) : Bool × Str :=
  checkWith u (pattern u deny) (allowPattern u allow) prompt

end AskFable.Guard
