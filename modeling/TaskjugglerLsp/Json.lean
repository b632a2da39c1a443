import Mathlib.Data.Rat.Defs
import TaskjugglerLsp.Parser

/-!
# JSON values and how the handlers read them

The value type of the JSON library and the accessors of `rpc.c`.  An accessor
that the library lets fail returns `none`, as does any accessor on a missing
value.
-/

namespace TaskjugglerLsp

inductive Json where
  | null
  | bool (b : Bool)
  | int (n : ℤ)
  | real (q : ℚ)
  | str (s : List UInt8)
  | arr (items : List Json)
  | obj (fields : List (String × Json))

namespace Json

/-- `yyjson_obj_get`: the first field with that key. -/
def objGet : Option Json → String → Option Json
  | some (.obj fields), key => (fields.find? (·.1 == key)).map (·.2)
  | _, _ => none

/-- `yyjson_get_str`. -/
def getStr : Option Json → Option CStr
  | some (.str s) => some (cutNul s)
  | _ => none

/-- `json_str`. -/
def strField (obj : Option Json) (key : String) : Option CStr := getStr (objGet obj key)

/-- `yyjson_is_arr`, and the elements. -/
def getArr : Option Json → Option (List Json)
  | some (.arr items) => some items
  | _ => none

/-- `yyjson_get_num`, cast to an integer; `none` where `yyjson_is_num` fails. -/
def getNum : Option Json → Option ℤ
  | some (.int n) => some n
  | some (.real q) => some (q.num.tdiv q.den)
  | _ => none

/-- `yyjson_get_sint`, an `int64_t`; `none` where `yyjson_is_int` fails. -/
def getSint : Option Json → Option ℤ
  | some (.int n) => some (n.bmod (2 ^ 64))
  | _ => none

/-- The cast to `uint32_t`. -/
def toUInt32 (n : ℤ) : UInt32 := UInt32.ofNat (n % 2 ^ 32).toNat

/-- `json_to_pos`: what is missing is zero. -/
def toPos (obj : Option Json) : LspPos :=
  ⟨((getNum (objGet obj "line")).map toUInt32).getD 0,
    ((getNum (objGet obj "character")).map toUInt32).getD 0⟩

end Json

end TaskjugglerLsp
