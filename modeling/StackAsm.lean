import StackAsm.Main
import StackAsm.Proofs.Build.Reload
import StackAsm.Proofs.Container.NormalForm
import StackAsm.Proofs.Container.Outline
import StackAsm.Proofs.StackCode.Lowering
import StackAsm.Proofs.Build.Closure
import StackAsm.Proofs.Build.Aliases
import StackAsm.Proofs.Build.Resolution
import StackAsm.Proofs.Build.Variables
import StackAsm.Proofs.StackCode.Options
import StackAsm.Proofs.StackCode.Boxing
import StackAsm.Proofs.StackCode.Tables
import StackAsm.Proofs.Build.Severity
import StackAsm.Proofs.Parse.Rounds
import StackAsm.Proofs.Source.Integers
import StackAsm.Proofs.CommandLine.Outputs
import StackAsm.Proofs.Bytes.History
import StackAsm.Proofs.Program.Listing
import StackAsm.Proofs.Source.Quotes
