import ScopeStack.Builder
import ScopeStack.Json.Records
import ScopeStack.Pipeline
import ScopeStack.Proofs.Emission.Balance
import ScopeStack.Proofs.Execution.Confinement
import ScopeStack.Proofs.Execution.Entry
import ScopeStack.Proofs.Execution.Expressions
import ScopeStack.Proofs.Execution.Integrity
import ScopeStack.Proofs.Execution.Owners
import ScopeStack.Proofs.Layout.Exactness
import ScopeStack.Proofs.Linking.Faults
import ScopeStack.Proofs.Linking.Reports
import ScopeStack.Proofs.Machine.Accesses
import ScopeStack.Proofs.Machine.Heap
import ScopeStack.Proofs.Machine.Limit
import ScopeStack.Proofs.Machine.Numbers
import ScopeStack.Proofs.Machine.Reservation
import ScopeStack.Proofs.Machine.Texts
import ScopeStack.Proofs.Renaming.Compilation
import ScopeStack.Proofs.Text.Literals
