import FileRouting.Session
import FileRouting.Options.Settings
import FileRouting.Proofs.LifeCycle
import FileRouting.Proofs.RouteLayouts
import FileRouting.Proofs.LayoutEntries
import FileRouting.Proofs.FirstConflict
import FileRouting.Proofs.AddedRoute
import FileRouting.Proofs.PercentEncoding
import FileRouting.Proofs.CatchAll
import FileRouting.Proofs.NormalRequests
import FileRouting.Proofs.SegmentGrammar
import FileRouting.Proofs.PatternSource
import FileRouting.Proofs.VisibleComponents
import FileRouting.Proofs.ScanBounds
import FileRouting.Proofs.OutputDirectories
