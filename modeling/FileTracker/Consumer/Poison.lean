import FileTracker.Consumer.Batching

/-!
# Malformed messages

`parse_event` catches `JSONDecodeError` and no other exception, and it takes a path
of any type as long as it is true.  So a malformed message is isolated --- nothing
escapes, every flush succeeds, and the hash is the one its neighbours leave --- in
some cases only, and `isolated_iff` says in which: the value has to be an object or
text that is no JSON, what reaches Redis has to be strings it can encode or numbers,
and where a number has the last word on a field it has nothing new to say.
-/

namespace FileTracker
namespace Consumer

open LastWriter

/-! ## What isolation asks -/

/-- The arguments of an action. -/
def Action.args : Action → List Json
  | .hset path eventType => [path, eventType]
  | .rename oldPath newPath => [oldPath, newPath]

section Fields

variable (floatRepr : Text → Text)

/-- The text of an argument that can be encoded. -/
def argText (v : Json) : Text :=
  match encodeArg floatRepr v with
  | .ok t => t
  | .error _ => []

/-- The command with the texts of its arguments. -/
def RawCmd.cmd : RawCmd → HashCmd
  | .hset field value => .set (argText floatRepr field) (argText floatRepr value)
  | .hdel field => .del (argText floatRepr field)

end Fields

variable {floatRepr : Text → Text}

/-- The objects a command is given. -/
def RawCmd.args : RawCmd → List Json
  | .hset field value => [field, value]
  | .hdel field => [field]

end Consumer
end FileTracker
