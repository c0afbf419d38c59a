import Dossier.Json.Token

/-! The structure of a JSON text before it is given a meaning. Members of objects
stand as they are written, repeated keys included, and a literal without a value
is kept as `none`. -/
namespace Dossier.Json

inductive Tree where
  | null
  | bool (value : Bool)
  | number (value : Option Number)
  | text (value : Option String)
  | array (items : List Tree)
  | object (members : List (Option String × Tree))

namespace Tree

/-- An array or object that is still open: what it holds so far, latest first, and
in an object the key that waits for its value. -/
inductive Frame where
  | array (items : List Tree)
  | object (members : List (Option String × Tree)) (key : Option String)

def Frame.put (tree : Tree) : Frame → Frame
  | .array items => .array (tree :: items)
  | .object members key => .object ((key, tree) :: members) key

/-- What the tokens read so far call for. The open frames are listed innermost
first. -/
inductive Progress where
  | value (outer : List Frame)
  | firstItem (outer : List Frame)
  | firstKey (outer : List Frame)
  | key (members : List (Option String × Tree)) (outer : List Frame)
  | colon (members : List (Option String × Tree)) (key : Option String) (outer : List Frame)
  | more (frame : Frame) (outer : List Frame)
  | done (tree : Tree)

/-- A finished tree goes to the innermost open frame. -/
def Progress.finish (tree : Tree) : List Frame → Progress
  | [] => .done tree
  | frame :: outer => .more (frame.put tree) outer

/-- A token where a value is called for. -/
def Progress.begin (outer : List Frame) : Token → Option Progress
  | .beginArray => some (.firstItem outer)
  | .beginObject => some (.firstKey outer)
  | .null => some (.finish .null outer)
  | .bool b => some (.finish (.bool b) outer)
  | .number n => some (.finish (.number n) outer)
  | .text s => some (.finish (.text s) outer)
  | _ => none

def Progress.step : Progress → Token → Option Progress
  | .value outer, token => begin outer token
  | .firstItem outer, .endArray => some (.finish (.array []) outer)
  | .firstItem outer, token => begin (.array [] :: outer) token
  | .firstKey outer, .endObject => some (.finish (.object []) outer)
  | .firstKey outer, .text name => some (.colon [] name outer)
  | .key members outer, .text name => some (.colon members name outer)
  | .colon members name outer, .colon => some (.value (.object members name :: outer))
  | .more (.array items) outer, .comma => some (.value (.array items :: outer))
  | .more (.array items) outer, .endArray => some (.finish (.array items.reverse) outer)
  | .more (.object members _) outer, .comma => some (.key members outer)
  | .more (.object members _) outer, .endObject => some (.finish (.object members.reverse) outer)
  | _, _ => none

def Progress.run : Progress → List Token → Option Progress
  | progress, [] => some progress
  | progress, token :: rest => (progress.step token).bind (·.run rest)

def ofTokens? (tokens : List Token) : Option Tree :=
  match (Progress.value []).run tokens with
  | some (.done tree) => some tree
  | _ => none

/-- The tree of a text that follows the grammar of RFC 8259. -/
def parse? (text : String) : Option Tree := (Token.scan text).bind ofTokens?

end Tree
end Dossier.Json
