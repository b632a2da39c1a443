import Mathlib.Algebra.Group.Int.Defs
import Mathlib.Algebra.GroupWithZero.Nat
import Mathlib.Data.Int.Notation
import Mathlib.Data.List.Basic

/-!
# URIs, paths and the file system

`pathutil.c`.  A C string is the list of its bytes before the terminating NUL.
`realpath` is the one call that leaves the program; everything that resolves a
URI takes it as an argument, so that a file system which changes between two
calls is two different arguments.
-/

namespace TaskjugglerLsp

/-- The bytes of a NUL-terminated string. -/
abbrev CStr := List UInt8

/-- What is said of every byte of a string is decided from the first byte to the last. -/
instance instDecidableForallMemCStr (s : CStr) (p : UInt8 → Prop) [DecidablePred p] :
    Decidable (∀ b ∈ s, p b) :=
  List.decidableBAll p s

instance instDecidableForallMemByte (o : Option UInt8) (p : UInt8 → Prop) [DecidablePred p] :
    Decidable (∀ b ∈ o, p b) :=
  match o with
  | none => isTrue fun _ h => by cases h
  | some b => decidable_of_iff (p b) ⟨fun h _ hb => Option.some.inj hb ▸ h, fun h => h b rfl⟩

/-- The bytes of a string literal. -/
def cstr (s : String) : CStr := s.toByteArray.data.toList

/-- What a C string function sees of a buffer: everything before the first NUL. -/
def cutNul (s : List UInt8) : CStr := s.takeWhile (· != 0)

/-- What `stat` reports of a file. -/
structure FileStat where
  mtimeSec : ℤ
  mtimeNsec : ℤ
  size : ℤ
  deriving DecidableEq, Repr

/-! ### Percent encoding -/

/-- The value of a hexadecimal digit, if it is one (`isxdigit`). -/
def hexValue (c : UInt8) : Option UInt8 :=
  if 48 ≤ c ∧ c ≤ 57 then some (c - 48)
  else if 65 ≤ c ∧ c ≤ 70 then some (c - 55)
  else if 97 ≤ c ∧ c ≤ 102 then some (c - 87)
  else none

/-- The loop of `percent_decode`. -/
def percentDecodeBytes : CStr → List UInt8
  | 37 :: a :: b :: rest =>
    match hexValue a, hexValue b with
    | some x, some y => (x * 16 + y) :: percentDecodeBytes rest
    | _, _ => 37 :: percentDecodeBytes (a :: b :: rest)
  | c :: rest => c :: percentDecodeBytes rest
  | [] => []

/-- `percent_decode`: an escaped NUL ends the result. -/
def percentDecode (src : CStr) : CStr := cutNul (percentDecodeBytes src)

/-- The bytes that a path keeps unescaped. -/
def unreserved (c : UInt8) : Bool :=
  c == 47 || (65 ≤ c && c ≤ 90) || (97 ≤ c && c ≤ 122) || (48 ≤ c && c ≤ 57)
    || c == 45 || c == 95 || c == 46 || c == 126

/-- `"0123456789ABCDEF"[n]`. -/
def hexDigit (n : UInt8) : UInt8 := if n < 10 then n + 48 else n + 55

def percentEncodePath (src : CStr) : CStr :=
  src.flatMap fun c => if unreserved c then [c] else [37, hexDigit (c >>> 4), hexDigit (c &&& 15)]

/-! ### URIs -/

/-- `"file://"`. -/
def fileScheme : CStr := cstr "file://"

def uriToPath (uri : CStr) : Option CStr :=
  if uri.take 7 = fileScheme then some (percentDecode (uri.drop 7)) else none

def pathToUri (path : CStr) : CStr := fileScheme ++ percentEncodePath path

/-- Collapse repeated separators and drop the segments `.`. -/
def lexicalNormalizePath (path : CStr) : CStr :=
  (if path.head? = some 47 then [47] else [])
    ++ List.intercalate [47] ((path.splitOn 47).filter fun seg => seg != [] && seg != [46])

/-- `normalize_uri`: the canonical spelling of a URI. -/
def normalizeUri (realpath : CStr → Option CStr) (rawUri : CStr) : CStr :=
  match uriToPath rawUri with
  | none => rawUri
  | some path => pathToUri ((realpath path).getD (lexicalNormalizePath path))

/-- The URIs that a run speaks of, and a fixed way to resolve them; one that is resolved is
resolved to itself. -/
structure Resolver where
  uris : CStr → Prop
  canon : CStr → CStr
  idem : ∀ uri, canon (canon uri) = canon uri

/-- Whichever files there are, the URIs of the run are resolved in that way. -/
def Resolver.Governs (r : Resolver) (realpath : CStr → Option CStr) : Prop :=
  ∀ uri, r.uris uri → normalizeUri realpath uri = r.canon uri

end TaskjugglerLsp
