import SimpleBinary.Main
import SimpleBinary.Proofs.Block.Evolution
import SimpleBinary.Proofs.Forest.Schema
import SimpleBinary.Proofs.Forest.Agreement
import SimpleBinary.Proofs.Forest.Member
import SimpleBinary.Proofs.Forest.Detection
import SimpleBinary.Proofs.Class.Plans
import SimpleBinary.Proofs.Forest.Brackets
import SimpleBinary.Proofs.Block.Advance
import SimpleBinary.Proofs.Class.LockStep
import SimpleBinary.Proofs.Class.Sizes
import SimpleBinary.Proofs.Class.Completeness
import SimpleBinary.Proofs.Walk.Run
import SimpleBinary.Proofs.Package.Independence
import SimpleBinary.Proofs.Package.Siblings
import SimpleBinary.Proofs.Forest.Whole
import SimpleBinary.Proofs.Block.Extent
import SimpleBinary.Proofs.Class.Kept
import SimpleBinary.Proofs.Class.Wire
import SimpleBinary.Proofs.Class.Reading
import SimpleBinary.Proofs.Class.Decoding
import SimpleBinary.Proofs.Package.ClassNames
import SimpleBinary.Proofs.Package.Written
import SimpleBinary.Proofs.Forest.Refusal
import SimpleBinary.Proofs.CommandLine.Overwriting
import SimpleBinary.Proofs.CommandLine.Isolation
import SimpleBinary.Proofs.Imports.Order
import SimpleBinary.Proofs.Class.WireRange
import SimpleBinary.Proofs.Class.Members
import SimpleBinary.Proofs.Package.Faults
import SimpleBinary.Proofs.Class.Quoting
import SimpleBinary.Proofs.Package.Uses
import SimpleBinary.Proofs.Package.Statements
import SimpleBinary.Proofs.Class.Docstrings
import SimpleBinary.Proofs.Numeral.Canonical
import SimpleBinary.Proofs.Token.Writing
import SimpleBinary.Proofs.Class.References
import SimpleBinary.Proofs.Class.Characters
import SimpleBinary.Proofs.Block.Choice
import SimpleBinary.Proofs.Identifier.Casing
