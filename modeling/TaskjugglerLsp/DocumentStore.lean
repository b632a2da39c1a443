import Mathlib.Data.Fintype.Basic
import Mathlib.Logic.Function.Basic
import TaskjugglerLsp.Parser

/-!
# The document store

`document_store.c`: a fixed array of slots, each free or holding a document.  A
slot that is not in use is all zeros in the source, so it is `none` here.
Reference counts and arenas are left out: a snapshot is a value.
-/

namespace TaskjugglerLsp

/-- `MAX_DOCS`. -/
def maxDocs : ℕ := 64

instance : NeZero maxDocs := ⟨by decide⟩

/-- The index of a slot in `docs[]`. -/
abbrev Slot := Fin maxDocs

/-- An immutable parse output (`doc_snapshot`). -/
structure DocSnapshot where
  docVersion : UInt64
  uri : CStr
  text : Option CStr
  root : TjNode
  tokSpans : List TokenSpan
  numSemEntries : ℕ

/-- A slot in use (`Document`). -/
structure Document where
  uri : CStr
  text : Option CStr
  docVersion : UInt64
  diskOnly : Bool
  isCcRoot : Bool
  snap : Option DocSnapshot
  prevSnap : Option DocSnapshot
  prefixes : PrefixSet
  includedUris : List CStr

/-- `docs[]`. -/
abbrev Store := Slot → Option Document

/-- The store after `docstore_init`. -/
def emptyStore : Store := fun _ => none

namespace Store

variable (s : Store)

/-- Change the document of a slot in use. -/
def modify (i : Slot) (f : Document → Document) : Store := Function.update s i ((s i).map f)

/-- Change the document of the slot that a lookup has found, if it has. -/
def modifyFound (o : Option Slot) (f : Document → Document) : Store :=
  match o with
  | some i => s.modify i f
  | none => s

/-- Put a document into a slot. -/
def put (i : Slot) (d : Document) : Store := Function.update s i (some d)

/-- The first slot in use with exactly that URI. -/
def findExact (uri : CStr) : Option Slot :=
  (List.finRange maxDocs).find? fun i => (s i).any (·.uri = uri)

/-- The first free slot. -/
def firstFree : Option Slot := (List.finRange maxDocs).find? fun i => (s i).isNone

/-- The number of free slots. -/
def freeCount : ℕ := (List.finRange maxDocs).countP fun i => (s i).isNone

end Store

/-- `doc_find`: compare the spelling first, then the canonical form. -/
def docFind (realpath : CStr → Option CStr) (s : Store) (uri : CStr) : Option Slot :=
  match s.findExact uri with
  | some i => some i
  | none =>
    let canon := normalizeUri realpath uri
    if canon ≠ uri then s.findExact canon else none

/-- A slot as `doc_alloc` leaves it. -/
def freshDocument (uri : CStr) : Document :=
  { uri := uri, text := none, docVersion := 1, diskOnly := false, isCcRoot := false, snap := none,
    prevSnap := none, prefixes := noPrefixes, includedUris := [] }

/-- `doc_alloc`. -/
def docAlloc (realpath : CStr → Option CStr) (s : Store) (uri : CStr) : Option (Slot × Store) :=
  s.firstFree.map fun i => (i, s.put i (freshDocument (normalizeUri realpath uri)))

/-- `docsnap_new`, on the document that the parse belongs to. -/
def docsnapNew (d : Document) (po : ParseOutput) : DocSnapshot :=
  ⟨d.docVersion, d.uri, d.text, po.root, po.tokSpans, po.numSemEntries⟩

namespace Document

variable (d : Document)

/-- `doc_clear_parse_state`. -/
def clearParseState : Document := { d with snap := none, prevSnap := none }

/-- `doc_install_parse`. -/
def installParse (po : ParseOutput) : Document :=
  { d with docVersion := d.docVersion + 1, snap := some (docsnapNew d po), prevSnap := d.snap }

end Document

/-- `doc_free`. -/
def docFree (s : Store) (i : Slot) : Store := Function.update s i none

end TaskjugglerLsp
