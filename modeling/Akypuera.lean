import Akypuera.System.Validity
import Akypuera.Converter.Pairing
import Akypuera.System.PointToPoint
import Akypuera.System.Marks
import Akypuera.System.Balance
import Akypuera.Converter.Misses
import Akypuera.Converter.Sizes
import Akypuera.Converter.Filters
import Akypuera.Tau.WellFormed
import Akypuera.Tau.ReadLoop
import Akypuera.Otf2.Hierarchy
import Akypuera.Otf2.Regions
import Akypuera.Otf2.InStep
import Akypuera.Otf2.Modes
import Akypuera.Tracer.SendMarks
import Akypuera.Tau.Clocks
import Akypuera.Tau.Accounting
import Akypuera.Otf.Registered
import Akypuera.Otf2.Filters
import Akypuera.Otf2.Hosts
import Akypuera.Otf2.Accesses
import Akypuera.Converter.Output
import Akypuera.Keys.Links
import Akypuera.Keys.Overflow
import Akypuera.Otf2.Deblank
import Akypuera.Converter.Comments
import Akypuera.Tracer.Sizes
import Akypuera.OmpPrint.Fields
import Akypuera.OmpPrint.Threads
import Akypuera.OmpPrint.Agree
import Akypuera.System.Readback
import Akypuera.System.Merges
import Akypuera.Otf.Readback
import Akypuera.Tau.Readback
import Akypuera.Otf2.Readback
