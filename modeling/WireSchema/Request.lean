/-!
# Requests

A request asks for the code of one service: its name, the root types to encode and
what the declarations document includes besides the settings' own list.
-/

namespace WireSchema

/-- What is asked for. -/
structure Request where
  service : String
  roots : List String
  includes : List String
  deriving DecidableEq, Inhabited

namespace Request

/-- The request for a service, with nothing in it. -/
def forService (service : String) : Request :=
  ⟨service, [], []⟩

/-- The request with one more root type; a root it already has changes nothing. -/
def addRoot (request : Request) (name : String) : Request :=
  if name ∈ request.roots then request
  else { request with roots := request.roots ++ [name] }

/-- The request with more root types, in order. -/
def addRoots (request : Request) (names : List String) : Request :=
  names.foldl addRoot request

/-- The request with one more include; includes may repeat. -/
def addInclude (request : Request) (path : String) : Request :=
  { request with includes := request.includes ++ [path] }

end Request

end WireSchema
