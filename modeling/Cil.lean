import Cil.Instr.Encode
import Cil.Instr.Session
import Cil.Main
import Cil.Store.Edit
import Cil.Proofs.Fetch
import Cil.Proofs.Resolution
import Cil.Proofs.Operand
import Cil.Proofs.Trace
import Cil.Proofs.Assembly
import Cil.Proofs.Tiling
import Cil.Proofs.Truncation
import Cil.Proofs.Metadata
import Cil.Proofs.Growth
import Cil.Proofs.Columns
import Cil.Proofs.ReadBack
import Cil.Proofs.Digits
import Cil.Proofs.Listing
import Cil.Proofs.Stream
import Cil.Proofs.Names
import Cil.Proofs.Residue
import Cil.Proofs.Composition
import Cil.Proofs.Numbering
import Cil.Proofs.Outcome
import Cil.Proofs.Dump
import Cil.Proofs.Canonical
import Cil.Proofs.Header
import Cil.Proofs.BodyWindow
import Cil.Proofs.InPlace
import Cil.Proofs.Literal
import Cil.Proofs.Identifier
import Cil.Proofs.Numeral
