import SimpleBinary.Emission

/-!
Requests to the record of imports.

What a module takes from elsewhere is asked for by name, one request after another. A request is noted, and
the notes go into the record. The only names that can be wrong are those of helpers, since the support module
is fixed: such a request is refused, and the record stays as it is.
-/

set_option autoImplicit false

namespace SimpleBinary

/-- What is asked of the imports of a module. -/
inductive Request
  /-- A module of the standard library is needed. -/
  | module (name : String)
  /-- Several modules of the standard library are needed. -/
  | modules (names : List String)
  /-- A helper is needed, which is given by its name. -/
  | helper (name : String)
  /-- A class is needed. -/
  | type (name : String)
  /-- The module defines a class. -/
  | define (name : String)

/-- What is noted for a request. -/
def Request.notes : Request → Except Fault (List Note)
  | .module name => .ok [.module name]
  | .modules names => .ok (names.map .module)
  | .helper name => (Helper.ofName name).map fun h => [.helper h]
  | .type name => .ok [.type name]
  | .define name => .ok [.defined name]

namespace Imports

/-- Serves a request. -/
def serve (r : Request) : EStateM Fault Imports Unit :=
  match r.notes with
  | .ok notes => modify fun i => i.addAll notes
  | .error fault => throw fault

/-- Serves several requests, up to the first one that is refused. -/
def serveAll (rs : List Request) : EStateM Fault Imports Unit :=
  rs.forM serve

end Imports

end SimpleBinary
