import Zryna.Backend.Agreement
import Zryna.Backend.WebAssembly.TypeGraph
import Zryna.Driver.DiagnosticSessions.Answers
import Zryna.Driver.DiagnosticSessions.Retention
import Zryna.Driver.ModuleClosure.Exactness
import Zryna.Driver.ServerLifecycle.Accounting
import Zryna.Driver.ServerTransport.Grammar
import Zryna.Ir.DataOwnership.CloneRecipes
import Zryna.Ir.DataOwnership.LoopDepth
import Zryna.Ir.Generic.Wire.RoundTrip
import Zryna.LanguageServer.Coordinates
import Zryna.LanguageServer.Framing
import Zryna.LanguageServer.Replies
import Zryna.Layout.ByValue
import Zryna.Layout.Diagnostics
import Zryna.Layout.Renumbering
import Zryna.Layout.Soundness
import Zryna.OwnershipRuntime.Accounting
import Zryna.OwnershipRuntime.ControlModel.Leaks
import Zryna.OwnershipRuntime.ControlModel.Payload
import Zryna.OwnershipRuntime.Native.Atomicity
import Zryna.Package.Frozen
import Zryna.Semantics.Instantiation.Exactness
import Zryna.Semantics.Instantiation.Expanding
import Zryna.Source.Build
import Zryna.Source.ImportResolution
