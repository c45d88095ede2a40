import SimpleBinary.Identifier
import SimpleBinary.NameSet
import SimpleBinary.Support

/-!
The imports of a generated module.

While a class is written, every name that it takes from elsewhere is recorded: a module of the
standard library, a helper of the support module, or a class of another module of the package. A
class that the module defines itself needs no import, whether it is defined before or after the
first mention. So a record is four sets of names, of which the needed classes and the defined ones
have no name in common, and the order of the recording leaves no trace.
-/

set_option autoImplicit false

namespace SimpleBinary

/-- What a module imports and defines. -/
structure Imports where
  modules : NameSet := .empty
  helpers : NameSet := .empty
  /-- The classes of other modules. -/
  types : NameSet := .empty
  /-- The classes that the module defines. -/
  defined : NameSet := .empty

namespace Imports

/-- The record with a module of the standard library added. -/
def needModule (name : String) (i : Imports) : Imports :=
  { i with modules := i.modules.insert name }

/-- The record with a helper added. -/
def needHelper (helper : Helper) (i : Imports) : Imports :=
  { i with helpers := i.helpers.insert helper.name }

/-- The record with a class added, unless the module defines it. -/
def needType (name : String) (i : Imports) : Imports :=
  if name ∈ i.defined then i else { i with types := i.types.insert name }

/-- The record with a class that the module defines; it is not imported any more. -/
def define (name : String) (i : Imports) : Imports :=
  { i with types := i.types.erase name, defined := i.defined.insert name }

/-- The modules of the package that classes are imported from. -/
def siblings (i : Imports) : NameSet :=
  .ofList (i.types.toList.map fun name : String => Identifier.moduleName name)

/-- The classes that are imported from a module of the package. -/
def typesFrom (module : String) (i : Imports) : NameSet :=
  i.types.filter fun name => Identifier.moduleName name == module

/-- The line that imports names from a module of the package. -/
def lineFrom (module : String) (names : NameSet) : String :=
  s!"from .{module} import " ++ ", ".intercalate names.toList

/-- The lines that import from the package. -/
def packageLines (i : Imports) : List String :=
  (if i.helpers.isEmpty then [] else [lineFrom supportModule i.helpers]) ++
    i.siblings.toList.map fun module => lineFrom module (i.typesFrom module)

/-- The lines that import modules of the standard library. -/
def moduleLines (i : Imports) : List String :=
  i.modules.toList.map ("import " ++ ·)

/-- The import lines, with an empty one between the two kinds. -/
def lines (i : Imports) : List String :=
  i.moduleLines ++
    (if i.moduleLines.isEmpty || i.packageLines.isEmpty then [] else [""]) ++
    i.packageLines

/-- The import block. -/
def text (i : Imports) : String :=
  "\n".intercalate i.lines

theorem mem_siblings {module : String} {i : Imports} :
    module ∈ i.siblings ↔ ∃ name ∈ i.types, Identifier.moduleName name = module := by
  simp [siblings, NameSet.mem_ofList]

theorem mem_typesFrom {module name : String} {i : Imports} :
    name ∈ i.typesFrom module ↔ name ∈ i.types ∧ Identifier.moduleName name = module := by
  simp [typesFrom]

end Imports

end SimpleBinary
