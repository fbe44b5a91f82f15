import AskFable.General.Derived
import AskFable.General.Keyed
import AskFable.Index.Chunks

/-!
# Indexing a project again

The index is a table of files with their digests, a table of chunks with row ids, and a vector
for some of the chunks. A call walks the project, indexes anew what has changed, drops what is
gone and commits; then it asks the embedding hosts for the vectors that are missing and commits
again. An error in between rolls back what is not yet committed.
-/
namespace AskFable.Index
open AskFable.Text AskFable.Python AskFable.Python.Utf8 AskFable.Pack AskFable.Derived

def MAX_FILES : ℕ := 4000

def DEFAULT_EMBED_BATCH : ℕ := 64

def SKIP_DIRS : List Str :=
  [txt ".git", txt ".hg", txt ".svn", txt "node_modules", txt ".venv", txt "venv",
    txt "__pycache__", txt ".mypy_cache", txt ".ruff_cache", txt ".pytest_cache", txt ".tox",
    txt ".nox", txt "dist", txt "build", txt "site-packages", txt ".cache", txt "target",
    txt ".next", txt ".gradle", txt ".dart_tool"]

/-- `hashlib.sha1(text.encode()).hexdigest()`. -/
structure Sha1 where
  hex : Str → Str
  length_hex : ∀ text, (hex text).length = 40

/-- `_EXTRA_BREAKS_RE.search`. -/
def extraBreak : Str → Bool
  | [] => false
  | c :: text =>
    (c == cp '\r' && text.head? != some (cp '\n')) ||
      [0x0B, 0x0C, 0x1C, 0x1D, 0x1E, 0x85, 0x2028, 0x2029].contains c.val || extraBreak text

/-- The digest of a text, tagged where its lines were once counted otherwise. -/
def digest (sha1 : Sha1) (text : Str) : Str :=
  sha1.hex text ++ if extraBreak text then txt "+nl" else []

/-- What the index derives from a file. -/
def scheme (sha1 : Sha1) : Scheme Str (List Chunk) Str := ⟨digest sha1, chunksFor⟩

/-! ### The tables -/

structure Row where
  id : ℕ
  path : Str
  chunk : Chunk
  deriving DecidableEq

structure VectorRow (V : Type*) where
  chunkId : ℕ
  model : Str
  vector : V
  deriving DecidableEq

structure Db (V : Type*) where
  files : List (Str × Str)
  chunks : List Row
  vectors : List (VectorRow V)
  deriving DecidableEq

variable {V : Type*}

namespace Db

def empty : Db V := ⟨[], [], []⟩

/-- The next row id: one above the greatest in the table, so that an id can come back. -/
def nextId (db : Db V) : ℕ := (db.chunks.map Row.id).foldr max 0 + 1

/-- `DELETE FROM chunks WHERE path = ?`; the vectors of the rows go with them. -/
def deleteChunks (db : Db V) (path : Str) : Db V where
  files := db.files
  chunks := db.chunks.filter fun r => r.path ≠ path
  vectors := db.vectors.filter fun v =>
    db.chunks.all fun r => r.path ≠ path ∨ r.id ≠ v.chunkId

def insertChunk (path : Str) (db : Db V) (c : Chunk) : Db V :=
  { db with chunks := db.chunks ++ [⟨db.nextId, path, c⟩] }

/-- `INSERT OR REPLACE INTO files`. -/
def putFile (db : Db V) (path sha : Str) : Db V :=
  { db with files := db.files.filter (fun f => f.1 ≠ path) ++ [(path, sha)] }

def deleteFile (db : Db V) (path : Str) : Db V :=
  { db with files := db.files.filter fun f => f.1 ≠ path }

/-- `INSERT OR REPLACE INTO vectors`. -/
def putVector (db : Db V) (v : VectorRow V) : Db V :=
  { db with vectors := db.vectors.filter (fun w => w.chunkId ≠ v.chunkId) ++ [v] }

/-- The chunks of a file, in the order of their rows. -/
def chunksOf (db : Db V) (path : Str) : List Chunk :=
  (db.chunks.filter fun r => r.path = path).map Row.chunk

/-- Each file's digest and chunks. -/
def shown (db : Db V) : Table Str (List Chunk) Str := fun path =>
  (db.files.lookup path).map fun sha => (sha, db.chunksOf path)

end Db

/-! ### Files -/

/-- `_read_text`, of what can be read of a file. -/
def readText (cap : ℕ) (data : Option Bytes) : Option Str :=
  data.bind fun data =>
    if cap < data.length ∨ 0 ∈ data.take 4096 then none else decode data

/-- A file as the walk comes to it, by its path below the root; `none` stands for an `OSError`. -/
structure Entry where
  rel : Str
  symlink : Bool
  size : Option ℕ
  regular : Bool
  data : Option Bytes

/-- No directory on the way to the file is skipped. -/
def walked (e : Entry) : Bool := (pathParts e.rel).dropLast.all fun d => d ∉ SKIP_DIRS

section
variable [Pack.Unicode]

/-- The walk refuses the file. -/
def refuses (extra : List Str) (cap : ℕ) (e : Entry) : Bool :=
  isBlocked e.rel extra || e.symlink || e.size.elim true (fun size => !e.regular || cap < size) ||
    (readText cap e.data).isNone

/-- The files found and how many were refused, from these on. -/
def iterFrom (extra : List Str) (cap : ℕ) : List Str → ℕ → List Entry → List Str × ℕ
  | found, refused, [] => (found, refused)
  | found, refused, e :: es =>
    if MAX_FILES ≤ found.length then (found, refused)
    else if refuses extra cap e then iterFrom extra cap found (refused + 1) es
    else iterFrom extra cap (found ++ [e.rel]) refused es

/-- `_iter_files`, of the files in the order of the walk. -/
def iterFiles (extra : List Str) (cap : ℕ) (entries : List Entry) : List Str × ℕ :=
  iterFrom extra cap [] 0 (entries.filter walked)

/-! ### Vectors -/

/-- One host's vectors, batch by batch from the `i`th on. -/
def embedHost (post : ℕ → List Str → Except Str (List V)) :
    ℕ → List (List Str) → Except Str (List V)
  | _, [] => .ok []
  | i, batch :: batches => do
    let vectors ← post i batch
    return vectors ++ (← embedHost post (i + 1) batches)

def batchesOf (texts : List Str) : List (List Str) :=
  (List.range ((texts.length + DEFAULT_EMBED_BATCH - 1) / DEFAULT_EMBED_BATCH)).map fun i =>
    (texts.drop (DEFAULT_EMBED_BATCH * i)).take DEFAULT_EMBED_BATCH

/-- The first host that answers every batch, or what each of them failed with. -/
def firstHost (post : Str → ℕ → List Str → Except Str (List V)) (texts : List Str) :
    List Str → List Str → Except Str (Str × List V)
  | [], errors => .error (txt "no embed host answered — " ++ (txt "; ").intercalate errors)
  | host :: hosts, errors =>
    match embedHost (post host) 0 (batchesOf texts) with
    | .ok vectors => .ok (host, vectors)
    | .error failed => firstHost post texts hosts (errors ++ [host ++ txt ": " ++ failed])

def embedTexts (hosts : List Str) (post : Str → ℕ → List Str → Except Str (List V))
    (texts : List Str) : Except Str (Str × List V) :=
  if texts = [] then .ok ([], []) else firstHost post texts hosts []

/-! ### A call -/

/-- Where an error ends a call that nothing in it catches, if one does: before its first commit or
before its second. -/
inductive Stop
  | never
  | files
  | vectors
  deriving DecidableEq

/-- A call of `index`, and what it meets: the walk, what is read of a file the second time, the
hosts with their answers, and an error. -/
structure Run (V : Type*) where
  force : Bool
  model : Str
  extra : List Str
  cap : ℕ
  entries : List Entry
  again : Str → Option Bytes
  hosts : List Str
  post : Str → ℕ → List Str → Except Str (List V)
  stop : Stop

def Run.onDisk (r : Run V) : List Str := (iterFiles r.extra r.cap r.entries).1

/-- The text a file is indexed with. -/
def Run.text (r : Run V) (path : Str) : Option Str :=
  if path ∈ r.onDisk then readText r.cap (r.again path) else none

structure Counts where
  added : ℕ
  changed : ℕ
  unchanged : ℕ
  removed : ℕ
  refused : ℕ
  deriving DecidableEq

/-- The index in the middle of a call, with the known files that no file on disk has been found
for yet. -/
structure Pass (V : Type*) where
  db : Db V
  known : List (Str × Str)
  counts : Counts

/-- One file on disk. -/
def visit (sha1 : Sha1) (r : Run V) (p : Pass V) (path : Str) : Pass V :=
  match readText r.cap (r.again path) with
  | none => { p with counts := { p.counts with refused := p.counts.refused + 1 } }
  | some text =>
    let sha := digest sha1 text
    let previous := p.known.lookup path
    let known := p.known.filter fun f => f.1 ≠ path
    if previous = some sha ∧ r.force = false then
      { p with known, counts := { p.counts with unchanged := p.counts.unchanged + 1 } }
    else
      { db := ((chunksFor text).foldl (Db.insertChunk path) (p.db.deleteChunks path)).putFile path sha
        known
        counts :=
          if previous.isSome then { p.counts with changed := p.counts.changed + 1 }
          else { p.counts with added := p.counts.added + 1 } }

/-- One file that is known and was not found. -/
def forget (p : Pass V) (path : Str) : Pass V where
  db := (p.db.deleteChunks path).deleteFile path
  known := p.known
  counts := { p.counts with removed := p.counts.removed + 1 }

/-- The files of the call, up to the first commit. -/
def passFiles (sha1 : Sha1) (r : Run V) (db : Db V) : Pass V :=
  let refused := (iterFiles r.extra r.cap r.entries).2
  let p := r.onDisk.foldl (visit sha1 r) ⟨db, db.files, ⟨0, 0, 0, 0, refused⟩⟩
  (p.known.map Prod.fst).foldl forget p

/-- The chunks without a vector of this model. -/
def pending (db : Db V) (model : Str) : List Row :=
  db.chunks.filter fun row => db.vectors.all fun v => v.chunkId ≠ row.id ∨ v.model ≠ model

/-- The vectors for the pending chunks, with the host that answered. -/
def answers (r : Run V) (db : Db V) : Except Str (Str × List V) := do
  let rows := pending db r.model
  let (host, vectors) ← embedTexts r.hosts r.post (rows.map (·.chunk.piece))
  if vectors.length ≠ rows.length then
    throw (txt "embedding host returned " ++ natStr vectors.length ++ txt " vectors for " ++
      natStr rows.length ++ txt " chunks")
  return (host, vectors)

def vectorRows (r : Run V) (db : Db V) (vectors : List V) : List (VectorRow V) :=
  (pending db r.model).zipWith (fun row v => ⟨row.id, r.model, v⟩) vectors

/-- The vectors of the call, up to the second commit. -/
def passVectors (r : Run V) (db : Db V) : Db V :=
  match answers r db with
  | .ok (_, vectors) => (vectorRows r db vectors).foldl Db.putVector db
  | .error _ => db

/-- What a call leaves of the index. -/
def index (sha1 : Sha1) (db : Db V) (r : Run V) : Db V :=
  let filed := (passFiles sha1 r db).db
  match r.stop with
  | .files => db
  | .vectors => filed
  | .never => passVectors r filed

structure Status where
  model : Str
  host : Str
  indexed : ℕ
  counts : Counts
  truncated : Bool
  chunks : ℕ
  embedded : ℕ
  pending : ℕ
  degraded : Option Str
  deriving DecidableEq

/-- What a call without an error returns. -/
def status (sha1 : Sha1) (db : Db V) (r : Run V) : Status :=
  let p := passFiles sha1 r db
  let rows := pending p.db r.model
  let embedded := if (answers r p.db).isOk then rows.length else 0
  { model := r.model
    host := match answers r p.db with | .ok (host, _) => host | .error _ => []
    indexed := r.onDisk.length
    counts := p.counts
    truncated := MAX_FILES ≤ r.onDisk.length
    chunks := p.db.chunks.length
    embedded
    pending := rows.length - embedded
    degraded := match answers r p.db with | .ok _ => none | .error e => some e }

end

end AskFable.Index
