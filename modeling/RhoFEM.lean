import RhoFEM.Lib.Branch
import RhoFEM.Lib.Rotate
import RhoFEM.Return.Module
import RhoFEM.Return.Encoder
import RhoFEM.Return.Annotation
import RhoFEM.Return.Checks
import RhoFEM.Return.Matching
import RhoFEM.Return.Address
import RhoFEM.Return.FunctionData
import RhoFEM.Return.DirectCalls
import RhoFEM.Return.Mangling
import RhoFEM.Return.Identifiers
import RhoFEM.Return.CallSites
import RhoFEM.Check.VptrRange
import RhoFEM.CHA.Callees
import RhoFEM.CHA.Intervals
import RhoFEM.CHA.ClassOrder
import RhoFEM.CHA.Metadata
import RhoFEM.CHA.Hierarchy
import RhoFEM.CHA.CloudSizes
import RhoFEM.Lib.Rounds
import RhoFEM.Layout.Dispatch
import RhoFEM.Layout.Clouds
import RhoFEM.Layout.VPtrRanges
import RhoFEM.Layout.Spacing
import RhoFEM.Layout.Nested
import RhoFEM.Frontend.Regions
import RhoFEM.Frontend.Orders
import RhoFEM.Layout.Lookups
import RhoFEM.Check.Agreement
import RhoFEM.Program.Attack
import RhoFEM.Program.LinkOrder
import RhoFEM.Frontend.Instructions
import RhoFEM.Program.MemberPointers
